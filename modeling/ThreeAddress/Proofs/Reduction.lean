import ThreeAddress.Proofs.CodeShape
import ThreeAddress.Proofs.SingleAssignment

/-!
# What folding leaves

In folded code there is nothing left to be folded. Each instruction is reduced with regard to those
before it (`Reduced`), which is said of the code alone: what is known of a variable is what the last
write to it says, and of a temporary nothing is known, for those of which something is known are
written no more.

This holds of whatever was folded. And reduced code stays as it is, so that folding once more
changes nothing (`ofCode_ofCode`): the second sweep knows of the variables what the first one knew.

The code of a program, moreover, writes each temporary once and before it is read. So does what is
left of it (`Facts.KeepsTemps.sweep`), although writes are left out: the temporaries that are left
out are known as something else, be it a constant, a variable or a temporary that is not left out.
-/

set_option autoImplicit false

namespace ThreeAddress

/-! ## Reduced code

The conditions are those of the folder, read off from what it would still do: carry out, rewrite,
leave out, or put in a value. They are stated without any facts, so that the theorem can be checked
against the code that is printed. -/

/-- The constant that is copied, if one is. -/
def Computation.constant? : Computation → Option Number
  | copy a => a.const?
  | _ => none

/-- The constant that the last write to a variable copied into it, if it did that. A write of
anything else, and no write at all, are alike: nothing is known of the variable. -/
def lastConst? (code : List Instr) (x : String) : Option Number :=
  (code.reverse.find? (·.dest = .var x)).bind (·.value.constant?)

/-- Nothing is left to be folded in an instruction that stands behind this code. -/
structure Instr.ReducedAfter (before : List Instr) (instr : Instr) : Prop where
  /-- An operator has an operand that is no constant. -/
  waits : (∃ a, instr.value = .copy a) ∨ ∃ p, .place p ∈ instr.value.operands
  ne_add_zero : ∀ a, instr.value ≠ .binary .add a (.const (.int 0))
  ne_mul_one : ∀ a, instr.value ≠ .binary .mul a (.const (.int 1))
  /-- What is only copied is not put into a temporary. -/
  keeps : ∀ a, instr.value = .copy a → instr.dest.isTemp = false
  /-- A variable is not read while it holds a constant that was copied into it. -/
  unknown : ∀ x, .place (.var x) ∈ instr.value.operands → lastConst? before x = none

/-- Every instruction is reduced with regard to the code before it. -/
def Reduced (code : List Instr) : Prop :=
  ∀ (before : List Instr) (instr : Instr) (after : List Instr),
    code = before ++ instr :: after → instr.ReducedAfter before

section

variable {before code : List Instr} {instr : Instr}

theorem lastConst?_concat (code : List Instr) (instr : Instr) (x : String) :
    lastConst? (code ++ [instr]) x =
      if instr.dest = .var x then instr.value.constant? else lastConst? code x := by
  by_cases h : instr.dest = .var x <;> simp [lastConst?, h]

theorem reduced_nil : Reduced [] := by
  intro before instr after h
  simp at h

/-- Reducedness goes from front to back, as the sweep does, so code is built up at its end. -/
theorem Reduced.concat (h : Reduced code) (hinstr : instr.ReducedAfter code) :
    Reduced (code ++ [instr]) := by
  intro before instr' after hsplit
  rcases List.eq_nil_or_concat after with rfl | ⟨inner, last, rfl⟩
  · obtain ⟨rfl, heq⟩ := List.append_inj' hsplit rfl
    cases heq
    exact hinstr
  · rw [List.concat_eq_append, ← List.cons_append, ← List.append_assoc] at hsplit
    exact h before instr' inner (List.append_inj' hsplit rfl).1

/-- A constant copied into a variable is reduced, whatever stands before it. -/
theorem reducedAfter_constant (before : List Instr) (x : String) (n : Number) (span : Span) :
    Instr.ReducedAfter before ⟨.var x, .copy (.const n), span⟩ where
  waits := .inl ⟨_, rfl⟩
  ne_add_zero _ h := by cases h
  ne_mul_one _ h := by cases h
  keeps _ _ := rfl
  unknown y h := by simp [Computation.operands] at h

end

/-! ## Simplification

A computation that waits for an operand still waits after it has been simplified, and simplifying
once is enough. Both are needed to see that what the sweep leaves is reduced and not only nearly so.
-/

namespace Computation

variable {c : Computation} {a : Operand}

/-- What can be carried out after simplification could be before. So there is no case in which
dropping a zero would make an instruction constant. -/
theorem eval?_simplify (h : c.eval? = none) : c.simplify.eval? = none := by
  rcases c.simplify_cases with hc | ⟨b, rfl, hc⟩ | ⟨b, rfl, hc⟩
  · rwa [hc]
  · rw [hc, eval?, const?_left h]
    rfl
  · rw [hc, eval?, const?_left h]
    rfl

theorem constant?_of_eval? (h : c.eval? = none) : c.constant? = none := by
  cases c with
  | copy a =>
    cases a with
    | place p => rfl
    | const n => cases h
  | unary op a => rfl
  | binary op a b => rfl

theorem simplify_simplify (c : Computation) : c.simplify.simplify = c.simplify := by
  rcases c.simplify_cases with hc | ⟨a, -, hc⟩ | ⟨a, -, hc⟩
  · rw [hc, hc]
  · rw [hc]
    rfl
  · rw [hc]
    rfl

/-- Simplification does nothing exactly where the two rewrites do not apply. -/
theorem simplify_eq_self_iff :
    c.simplify = c ↔ (∀ a, c ≠ .binary .add a (.const (.int 0))) ∧
      ∀ a, c ≠ .binary .mul a (.const (.int 1)) := by
  constructor
  · intro h
    constructor
    · rintro a rfl
      cases h
    · rintro a rfl
      cases h
  · rintro ⟨hzero, hone⟩
    rcases c.simplify_cases with hc | ⟨a, hc, -⟩ | ⟨a, hc, -⟩
    · exact hc
    · exact (hzero a hc).elim
    · exact (hone a hc).elim

theorem eval?_of_place {p : Place} (h : .place p ∈ c.operands) : c.eval? = none := by
  cases c with
  | copy a => cases List.mem_singleton.mp h; rfl
  | unary op a => cases List.mem_singleton.mp h; rfl
  | binary op a b =>
    rcases List.mem_pair.mp h with rfl | rfl
    · rfl
    · cases a <;> rfl

theorem mapOperands_eq_self {f : Operand → Operand} (h : ∀ a ∈ c.operands, f a = a) :
    c.mapOperands f = c := by
  cases c with
  | copy a => rw [mapOperands, h a (List.mem_singleton_self a)]
  | unary op a => rw [mapOperands, h a (List.mem_singleton_self a)]
  | binary op a b =>
    rw [mapOperands, h a List.mem_cons_self,
      h b (List.mem_cons_of_mem a (List.mem_singleton_self b))]

theorem exists_place_of_eval? (h : c.eval? = none) : ∃ p, .place p ∈ c.operands := by
  obtain ⟨a, ha, hconst⟩ := exists_operand_of_eval? h
  cases a with
  | place p => exact ⟨p, ha⟩
  | const n => cases hconst

end Computation

namespace Facts

variable {facts facts' : Facts} {instr instr' : Instr} {left : Option Instr} {p : Place}
  {before code rest : List Instr}

/-- What is only a copy into a temporary is left out. It may be a copy from the start, or become one
by simplification or by what is known; in each case `visit` comes to see it as one. -/
theorem isTemp_of_visit {a : Operand} (h : facts.visit instr = .ok (some instr', facts'))
    (hcopy : instr'.value = .copy a) : instr'.dest.isTemp = false := by
  simp only [visit] at h
  split at h
  · cases h
  next n hvalue =>
    split at h
    next => cases h
    next htemp =>
      cases h
      exact Bool.eq_false_iff.mpr htemp
  next hvalue =>
    split at h
    next => cases h
    next hne =>
      cases h
      have hnone := Computation.eval?_simplify hvalue
      rw [show (instr.value.mapOperands facts.resolve).simplify = .copy a from hcopy] at hnone hne
      cases a with
      | const n => cases hnone
      | place source =>
        cases hdest : instr.dest with
        | var x => rfl
        | temp index => exact (hne index source hdest rfl).elim

/-! ## The sweep reduces

One visit leaves an instruction that is reduced, provided that the facts say of variables what the
code left so far says. That proviso is kept by the visit, which makes it the invariant of the sweep.
-/

/-- What is known of variables is what the code says that has been left. Of temporaries the code
left says less than the facts do, as their writes are missing from it. -/
def KnownFrom (facts : Facts) (code : List Instr) : Prop :=
  ∀ x, facts.value? (.var x) = lastConst? code x

theorem knownFrom_empty : empty.KnownFrom [] := fun _ => rfl

/-- What is left of an instruction is reduced with regard to what has been left before. A case for
each way of leaving something; a variable that is still read has no value, as it would have been put
in. -/
theorem reducedAfter_of_visit (h : facts.visit instr = .ok (some instr', facts'))
    (hknown : facts.KnownFrom before) : instr'.ReducedAfter before := by
  have hkeeps : ∀ a, instr'.value = .copy a → instr'.dest.isTemp = false :=
    fun a => isTemp_of_visit h
  generalize hleft : some instr' = left at h
  cases visit_of_ok h with
  | @folded n hvalue =>
    obtain ⟨dest, value, span⟩ := instr
    cases dest with
    | temp index => cases hleft
    | var x => cases hleft; exact reducedAfter_constant before x n span
  | linked => cases hleft
  | kept hvalue =>
    cases hleft
    have hnone := Computation.eval?_simplify hvalue
    obtain ⟨hzero, hone⟩ :=
      Computation.simplify_eq_self_iff.mp (instr.value.mapOperands facts.resolve).simplify_simplify
    refine ⟨.inr (Computation.exists_place_of_eval? hnone), hzero, hone, hkeeps, ?_⟩
    intro x hx
    obtain ⟨a, -, ha⟩ := exists_operand_of_simplified hx
    rw [← hknown x, value?_of_resolve ha]

/-- The invariant of the sweep, for one instruction. Another variable than the one written is known
as before, and the last write to it is the same. -/
theorem Visit.knownFrom (h : facts.Visit instr left facts') (hknown : facts.KnownFrom before) :
    facts'.KnownFrom (before ++ left.toList) := by
  intro x
  by_cases hx : instr.dest = .var x
  · cases h with
    | @folded n =>
      simp [hx, Place.isTemp, lastConst?_concat, value?, assign, Computation.constant?,
        Operand.const?]
    | linked _ hdest => cases hdest.symm.trans hx
    | kept hvalue =>
      have hconstant := Computation.constant?_of_eval? (Computation.eval?_simplify hvalue)
      simp [hx, lastConst?_concat, value?, hconstant]
  · rw [h.value?_of_ne (Ne.symm hx), hknown x]
    rcases h.dest_span with ⟨rfl, -⟩ | ⟨value, rfl⟩
    · rw [Option.toList_none, List.append_nil]
    · rw [Option.toList_some, lastConst?_concat, if_neg hx]

/-- The invariant for the whole sweep, by induction on the code, behind any reduced code that has
been left already. -/
theorem reduced_sweep {left : List Instr} (h : facts.sweep code = .ok (left, facts'))
    (hknown : facts.KnownFrom before) (hreduced : Reduced before) :
    Reduced (before ++ left) ∧ facts'.KnownFrom (before ++ left) := by
  induction code generalizing facts before left with
  | nil =>
    cases h
    rw [List.append_nil]
    exact ⟨hreduced, hknown⟩
  | cons instr code ih =>
    obtain ⟨first, next, rest, hvisit, hsweep, rfl⟩ := sweep_cons_ok h
    rw [← List.append_assoc]
    refine ih hsweep ((visit_of_ok hvisit).knownFrom hknown) ?_
    cases first with
    | none => rwa [Option.toList_none, List.append_nil]
    | some instr' => exact hreduced.concat (reducedAfter_of_visit hvisit hknown)

/-! ## Reduced code stays

The second sweep meets code in which there is nothing to do. It knows of variables what the first
one knew, and of temporaries nothing, since none is left that is a constant or a copy. -/

/-- Nothing is known but values of variables. -/
structure Plain (facts : Facts) : Prop where
  source? : ∀ p, facts.source? p = none
  value?_temp : ∀ n, facts.value? (.temp n) = none

theorem plain_empty : empty.Plain := ⟨fun _ => rfl, fun _ => rfl⟩

theorem Plain.resolve (h : facts.Plain) (hp : facts.value? p = none) :
    facts.resolve (.place p) = .place p := by
  simp only [Facts.resolve, h.source? p, Option.getD_none, hp]

theorem Plain.assign (h : facts.Plain) (x : String) (n : Number) :
    (facts.assign (.var x) n).Plain where
  source? p := by
    by_cases hp : p = .var x
    · simp [Facts.source?, Facts.assign, hp]
    · simpa [Facts.source?, Facts.assign, fact?_learn, hp] using h.source? p
  value?_temp m := by
    simpa [Facts.value?, Facts.assign, fact?_learn] using h.value?_temp m

theorem Plain.forget (h : facts.Plain) (p : Place) : (facts.forget p).Plain where
  source? q := by
    by_cases hq : q = p
    · simp [Facts.source?, hq]
    · simpa [Facts.source?, fact?_forget, hq] using h.source? q
  value?_temp m := by
    by_cases hm : .temp m = p
    · simp [Facts.value?, hm]
    · simpa [Facts.value?, fact?_forget, hm] using h.value?_temp m

/-- What is reduced is as it was after a visit, and no more is known of a temporary. -/
theorem visit_of_reducedAfter (h : instr.ReducedAfter before) (hplain : facts.Plain)
    (hknown : facts.KnownFrom before) :
    ∃ facts', facts.visit instr = .ok (some instr, facts') ∧ facts'.Plain := by
  -- nothing is put in for an operand: no temporary is known, and a variable only if it is not read
  have hresolve : ∀ a ∈ instr.value.operands, facts.resolve a = a := by
    intro a ha
    cases a with
    | const n => rfl
    | place p =>
      cases p with
      | temp m => exact hplain.resolve (hplain.value?_temp m)
      | var x => exact hplain.resolve ((hknown x).trans (h.unknown x ha))
  have hsame := Computation.mapOperands_eq_self hresolve
  obtain ⟨dest, value, span⟩ := instr
  cases hvalue : value.eval? with
  | some outcome =>
    -- the operands are constants, and so it is a copy into a variable
    rcases h.waits with ⟨a, rfl⟩ | ⟨p, hp⟩
    · have hdest := h.keeps a rfl
      cases a with
      | place p => cases hvalue
      | const n =>
        cases dest with
        | temp m => cases hdest
        | var x => exact ⟨facts.assign (.var x) n, rfl, hplain.assign x n⟩
    · rw [Computation.eval?_of_place hp] at hvalue
      cases hvalue
  | none =>
    have hsimplify := Computation.simplify_eq_self_iff.mpr ⟨h.ne_add_zero, h.ne_mul_one⟩
    refine ⟨facts.forget dest, ?_, hplain.forget dest⟩
    simp only [visit, hsame, hvalue, hsimplify]
    split
    · cases h.keeps _ ‹_›
    · rfl

/-- Reduced code is swept without a change. The induction is on what is still to be swept, with the
code before it kept, since being reduced is relative to that. -/
theorem sweep_of_reduced (h : Reduced (before ++ code)) (hplain : facts.Plain)
    (hknown : facts.KnownFrom before) :
    ∃ facts', facts.sweep code = .ok (code, facts') ∧ facts'.KnownFrom (before ++ code) := by
  induction code generalizing facts before with
  | nil => exact ⟨facts, rfl, by rwa [List.append_nil]⟩
  | cons instr code ih =>
    obtain ⟨next, hvisit, hnext⟩ := visit_of_reducedAfter (h before instr code rfl) hplain hknown
    rw [← List.singleton_append, ← List.append_assoc] at h ⊢
    obtain ⟨facts', hsweep, hknown'⟩ := ih h hnext ((visit_of_ok hvisit).knownFrom hknown)
    refine ⟨facts', ?_, hknown'⟩
    simp only [List.singleton_append, sweep, hvisit, hsweep, bind, Except.bind]
    rfl

end Facts

/-! ## Folding once more

From the sweep to the whole of folding, which looks up the answer at the end. If the answer is
known, the code left is one instruction, and it is reduced for a reason of its own. -/

section

variable {answer : String} {code : List Instr} {folded : Folded}

theorem exists_lastWrite?_of_lastConst? {n : Number} (h : lastConst? code answer = some n) :
    ∃ span, lastWrite? code (.var answer) = some span := by
  obtain ⟨instr, hinstr, -⟩ := Option.bind_eq_some_iff.mp h
  exact ⟨instr.span, by rw [lastWrite?, hinstr]; rfl⟩

/-- Folded code is reduced, and the result is the constant that it has for the answer. If there is
one, nothing else is left. -/
theorem reduced_of_ofCode (h : Folded.ofCode answer code = .ok folded) :
    Reduced folded.code ∧ lastConst? folded.code answer = folded.result ∧
      ∀ value, folded.result = some value →
        ∃ span, folded.code = [⟨.var answer, .copy (.const value), span⟩] := by
  cases hsweep : Facts.empty.sweep code with
  | error diagnostic => cases (ofCode_of_sweep_error hsweep).symm.trans h
  | ok swept =>
    obtain ⟨left, facts⟩ := swept
    obtain ⟨hreduced, hknown⟩ :=
      Facts.reduced_sweep hsweep Facts.knownFrom_empty reduced_nil
    cases hvalue : facts.value? (.var answer) with
    | none =>
      cases (ofCode_of_unknown hsweep hvalue).symm.trans h
      exact ⟨hreduced, (hknown answer).symm.trans hvalue, fun _ hresult => by cases hresult⟩
    | some value =>
      obtain ⟨span, hspan⟩ :=
        exists_lastWrite?_of_lastConst? ((hknown answer).symm.trans hvalue)
      cases (ofCode_of_known hsweep hvalue hspan).symm.trans h
      refine ⟨reduced_nil.concat (reducedAfter_constant [] answer value span), ?_, ?_⟩
      · simp [lastConst?, Computation.constant?, Operand.const?]
      · rintro _ ⟨⟩
        exact ⟨span, rfl⟩

/-- Folding once more changes nothing, whatever the code was that was folded. It need not be that of
a program: temporaries may be written again and read before they are written. -/
theorem ofCode_ofCode (h : Folded.ofCode answer code = .ok folded) :
    Folded.ofCode answer folded.code = .ok folded := by
  obtain ⟨hreduced, hlast, hcode⟩ := reduced_of_ofCode h
  have hreduced : Reduced ([] ++ folded.code) := hreduced
  obtain ⟨facts, hsweep, hknown⟩ :=
    Facts.sweep_of_reduced hreduced Facts.plain_empty Facts.knownFrom_empty
  have hvalue : facts.value? (.var answer) = folded.result := (hknown answer).trans hlast
  obtain ⟨left, result⟩ := folded
  cases result with
  | none => exact ofCode_of_unknown hsweep hvalue
  | some value =>
    obtain ⟨span, rfl⟩ := hcode value rfl
    exact ofCode_of_known hsweep hvalue (by simp [lastWrite?])

/-- A temporary is written again while it is known as a copy, another one is read before it is
written, and `x` is a constant for a while. -/
def rewritten : List Instr :=
  [⟨.temp 0, .copy (.place (.var "y")), ⟨0, 1⟩⟩,
    ⟨.var "x", .copy (.const (.int 2)), ⟨2, 3⟩⟩,
    ⟨.temp 0, .binary .mul (.place (.temp 1)) (.place (.var "x")), ⟨4, 5⟩⟩,
    ⟨.temp 1, .binary .add (.place (.temp 0)) (.const (.int 0)), ⟨6, 7⟩⟩,
    ⟨.var "x", .binary .add (.place (.temp 1)) (.place (.var "x")), ⟨8, 9⟩⟩]

theorem ofCode_ofCode_rewritten :
    ∃ folded, Folded.ofCode "r" rewritten = .ok folded ∧ folded.code.length = 3 ∧
      Folded.ofCode "r" folded.code = .ok folded := by
  have h : Folded.ofCode "r" rewritten = .ok _ := rfl
  exact ⟨_, rfl, rfl, ofCode_ofCode h⟩

end

/-! ## Temporaries that are left

A temporary whose write is left out is known as a constant, as a variable, or as a temporary whose
write is not left out. So no read of it is left either. -/

namespace Facts

variable {facts facts' : Facts} {instr : Instr} {left : Option Instr} {written kept : Set Nat}

/-! Three sets of temporaries are in play: those written so far, those of them whose writes are
left, and those that are read in what is left. The last has to be within the second, and the sweep
sees to it only because a temporary is written once. -/

/-- Of the temporaries in `written`, those in `kept` have their writes left, and it is one of them
that is read where a temporary is known as a temporary. -/
structure KeepsTemps (facts : Facts) (written kept : Set Nat) : Prop where
  subset : kept ⊆ written
  copies : facts.CopiesOf written
  resolve : ∀ n ∈ written, ∀ m,
    facts.resolve (.place (.temp n)) = .place (.temp m) → m ∈ kept

theorem keepsTemps_empty : empty.KeepsTemps ∅ ∅ where
  subset := Set.Subset.rfl
  copies := copiesOf_empty ∅
  resolve n hn := absurd hn (Set.notMem_empty n)

/-- A copy is known as its source, if it is known as a place. -/
theorem resolve_of_source? {p source q : Place} (h : facts.source? p = some source)
    (hq : facts.resolve (.place p) = .place q) : source = q := by
  simp only [Facts.resolve, h, Option.getD_some] at hq
  split at hq
  · cases hq
  · exact Operand.place.inj hq

/-- A place that is read in what is left of an instruction is what an operand is known as. -/
theorem Visit.exists_operand {instr' : Instr} {q : Place}
    (h : facts.Visit instr (some instr') facts') (hq : .place q ∈ instr'.value.operands) :
    ∃ a ∈ instr.value.operands, facts.resolve a = .place q := by
  generalize hleft : some instr' = left at h
  cases h with
  | folded =>
    split at hleft
    · cases hleft
    · cases hleft
      cases List.mem_singleton.mp hq
  | linked => cases hleft
  | kept =>
    cases hleft
    exact exists_operand_of_simplified hq

/-- If an operand is known as a temporary, the write to that is left. -/
theorem KeepsTemps.mem (h : facts.KeepsTemps written kept) {a : Operand} {m : Nat}
    (ha : ∀ n, a = .place (.temp n) → n ∈ written) (hm : facts.resolve a = .place (.temp m)) :
    m ∈ kept := by
  cases a with
  | const n => cases hm
  | place p =>
    cases p with
    | temp n => exact h.resolve n (ha n rfl) m hm
    | var x =>
      rcases eq_or_source_of_resolve hm with heq | ⟨p, heq, hsource⟩
      · cases heq
      · cases heq
        exact Bool.noConfusion (h.copies _ _ hsource).1

/-- The temporaries whose writes are left after a visit. -/
def keptAfter (kept : Set Nat) (left : Option Instr) : Set Nat :=
  {n | n ∈ kept ∨ ∃ instr ∈ left, instr.dest = .temp n}

/-- The invariant for one instruction, if that reads only temporaries written before and writes a
new one. The second condition is where single assignment comes in: were the temporary written
before, others might be known as copies of it. -/
theorem Visit.keepsTemps (h : facts.Visit instr left facts')
    (hkeeps : facts.KeepsTemps written kept)
    (hreads : ∀ n, .place (.temp n) ∈ instr.value.operands → n ∈ written)
    (hnew : ∀ n, instr.dest = .temp n → n ∉ written) :
    facts'.KeepsTemps {n | n ∈ written ∨ instr.dest = .temp n} (keptAfter kept left) where
  subset := by
    rintro n (hn | ⟨instr', hleft, hn⟩)
    · exact .inl (hkeeps.subset hn)
    · rcases h.dest_span with ⟨rfl, -⟩ | ⟨value, rfl⟩
      · cases hleft
      · cases hleft
        exact .inr hn
  copies := (h.copiesOf hkeeps.copies hreads).mono fun n hn => .inl hn
  resolve n hn m hm := by
    by_cases hdest : .temp n = instr.dest
    -- the temporary that is written here: known as a constant, as a copy, or as itself
    · cases h with
      | folded =>
        rw [hdest, resolve_assign_self] at hm
        cases hm
      | @linked index source _ hindex hcopy =>
        obtain ⟨a, ha, hsource⟩ := exists_operand_of_simplify hcopy
        cases hdest.trans hindex
        rw [resolve_link_self n (value?_of_resolve hsource)] at hm
        cases hm
        exact .inl (hkeeps.mem (fun k hk => hreads k (hk ▸ ha)) hsource)
      | kept =>
        rw [hdest, resolve_forget_self, ← hdest] at hm
        cases hm
        exact .inr ⟨_, rfl, hdest.symm⟩
    · have hn := hn.resolve_right (Ne.symm hdest)
      by_cases hsource : facts.source? (.temp n) = some instr.dest
      -- no temporary is known as a copy of the one written here, and a variable is no temporary
      · cases hd : instr.dest with
        | temp k =>
          rw [hd] at hsource
          exact absurd ((hkeeps.copies _ _ hsource).2 k rfl) (hnew k hd)
        | var x =>
          rw [hd] at hsource
          cases resolve_of_source? ((h.source?_of_ne hdest).trans hsource) hm
      · rw [h.resolve_of_ne hdest hsource] at hm
        exact .inl (hkeeps.resolve n hn m hm)

/-- Of code that writes every temporary once, and reads none before that, such code is left. -/
theorem KeepsTemps.sweep {code left : List Instr} (h : facts.KeepsTemps written kept)
    (hsingle : SingleAssignment written code) (hsweep : facts.sweep code = .ok (left, facts')) :
    SingleAssignment kept left := by
  induction code generalizing facts written kept left with
  | nil => cases hsweep; trivial
  | cons instr code ih =>
    obtain ⟨hreads, hnew, hcode⟩ := hsingle
    obtain ⟨first, next, rest, hfirst, hrest, rfl⟩ := sweep_cons_ok hsweep
    have hvisit := visit_of_ok hfirst
    have hrest := ih (hvisit.keepsTemps h hreads hnew) hcode hrest
    cases first with
    | none => simpa [keptAfter] using hrest
    | some instr' =>
      have hset : keptAfter kept (some instr') = {n | n ∈ kept ∨ instr'.dest = .temp n} := by
        simp [keptAfter]
      rw [hset] at hrest
      refine ⟨?_, ?_, hrest⟩
      · intro n hn
        obtain ⟨a, ha, hresolve⟩ := hvisit.exists_operand hn
        exact h.mem (fun k hk => hreads k (hk ▸ ha)) hresolve
      · intro n hn hkept
        rcases hvisit.dest_span with ⟨hnone, -⟩ | ⟨value, hsome⟩
        · cases hnone
        · cases hsome
          exact hnew n hn (h.subset hkept)

end Facts

/-! ## The code of a program

The code of a program has the form that is needed, and folding keeps the writes to variables in
their places unless it finds the answer. -/

/-- Numbered code writes each temporary once, if the temporaries that it may read are written before
and those that it writes are not. As in `Numbered.readsCurrent`, what comes behind is a hypothesis.
-/
theorem Numbered.singleAssignment {first next : Nat} {code rest : List Instr} {written : Set Nat}
    (h : Numbered first next code) (hbelow : ∀ n ∈ written, n < next)
    (hcovers : ∀ n, first ≤ n → n < next → n ∈ written)
    (hrest : ∀ written' : Set Nat, (∀ n ∈ written', n < next + code.length) →
      (∀ n, first ≤ n → n < next + code.length → n ∈ written') → SingleAssignment written' rest) :
    SingleAssignment written (code ++ rest) := by
  induction code generalizing next written with
  | nil => exact hrest written hbelow hcovers
  | cons instr code ih =>
    -- the first instruction writes `next`, which is a new number, and reads lower ones
    obtain ⟨hdest, hreads, hcode⟩ := h
    have hlength : next + (instr :: code).length = next + 1 + code.length := by
      rw [List.length_cons, Nat.add_assoc, Nat.add_comm 1]
    rw [hlength] at hrest
    refine ⟨?_, ?_, ih hcode ?_ ?_ hrest⟩
    · intro n hn
      have hbetween := hreads _ hn
      exact hcovers n hbetween.1 hbetween.2
    · intro n hn hwritten
      cases hdest.symm.trans hn
      exact Nat.lt_irrefl next (hbelow next hwritten)
    · rintro n (hn | hn)
      · exact Nat.lt_succ_of_lt (hbelow n hn)
      · cases hdest.symm.trans hn
        exact Nat.lt_succ_self next
    · intro n hfirst hn
      -- every number that is lower than the next one has been written
      rcases Nat.lt_succ_iff_lt_or_eq.mp hn with hn | rfl
      · exact .inl (hcovers n hfirst hn)
      · exact .inr hdest

theorem singleAssignment_linearizeFrom (stmts : List Stmt) {before : Nat} {written : Set Nat}
    (hbelow : ∀ n ∈ written, n < before) :
    SingleAssignment written (linearizeFrom before stmts) := by
  induction stmts generalizing before written with
  | nil => trivial
  | cons stmt stmts ih =>
    cases stmt with
    | unsupported kind span => exact ih hbelow
    | assign target value span =>
      obtain ⟨hcode, ha⟩ := (value.linearizes before).numbered
      simp only [linearizeFrom, Stmt.linearize, List.append_assoc]
      apply hcode.singleAssignment hbelow
      · intro n hfirst hn
        exact absurd hn (Nat.not_lt.mpr hfirst)
      intro written' hbelow' hcovers'
      refine ⟨?_, ?_, ?_⟩
      · intro n hn
        rw [← List.mem_singleton.mp hn] at ha
        exact hcovers' n ha.1 ha.2
      · rintro n ⟨⟩
      · apply ih
        rintro n (hn | ⟨⟨⟩⟩)
        rw [List.length_append, ← Nat.add_assoc]
        exact Nat.lt_succ_of_lt (hbelow' n hn)

/-- A sweep leaves out writes to temporaries only, and gives none another range. -/
theorem Facts.varWrites_sweep {facts facts' : Facts} {code left : List Instr}
    (h : facts.sweep code = .ok (left, facts')) : varWrites left = varWrites code := by
  induction code generalizing facts left with
  | nil => cases h; rfl
  | cons instr code ih =>
    obtain ⟨first, next, rest, hvisit, hsweep, rfl⟩ := sweep_cons_ok h
    have hfirst : varWrites first.toList = varWrites [instr] := by
      rcases (visit_of_ok hvisit).dest_span with ⟨rfl, htemp⟩ | ⟨value, rfl⟩
      · cases hdest : instr.dest with
        | temp n => simp [varWrites, hdest]
        | var x => rw [hdest] at htemp; cases htemp
      · rfl
    rw [varWrites_append, ih hsweep, hfirst, ← varWrites_append, List.singleton_append]

/-- Folding the code of a program leaves code that is reduced, in which every temporary is written
once and none is read before that. Unless the answer is known, all writes to variables are left.

If the answer is known there is one instruction, for which the first two parts hold all the same;
the third would be false, as the other writes are gone. -/
theorem reduced_linearize {answer : String} {stmts : List Stmt} {folded : Folded}
    (h : Folded.ofCode answer (linearize stmts) = .ok folded) :
    Reduced folded.code ∧ SingleAssignment ∅ folded.code ∧
      (folded.result = none → varWrites folded.code = varWrites (linearize stmts)) := by
  obtain ⟨hreduced, -, hcode⟩ := reduced_of_ofCode h
  refine ⟨hreduced, ?_⟩
  obtain ⟨left, result⟩ := folded
  cases result with
  | none =>
    obtain ⟨facts, hsweep⟩ := sweep_of_ofCode_none h
    have hsingle : SingleAssignment ∅ (linearize stmts) :=
      singleAssignment_linearizeFrom stmts fun n hn => absurd hn (Set.notMem_empty n)
    exact ⟨Facts.keepsTemps_empty.sweep hsingle hsweep, fun _ => Facts.varWrites_sweep hsweep⟩
  | some value =>
    obtain ⟨span, rfl⟩ := hcode value rfl
    refine ⟨⟨?_, ?_, trivial⟩, fun hresult => by cases hresult⟩
    · intro n hn
      cases List.mem_singleton.mp hn
    · rintro n ⟨⟩

/-- Of `y`, which is not known, a product is left that is put into a temporary first. -/
theorem reduced_linearize_knownAtLast :
    ∃ folded, Folded.ofCode "y" (linearize knownAtLast) = .ok folded ∧
      tempWrites folded.code = [1] ∧ Reduced folded.code ∧ SingleAssignment ∅ folded.code ∧
      varWrites folded.code = [("r", ⟨0, 5⟩), ("y", ⟨7, 16⟩), ("r", ⟨18, 27⟩)] := by
  have h : Folded.ofCode "y" (linearize knownAtLast) = .ok _ := rfl
  obtain ⟨hreduced, hsingle, hwrites⟩ := reduced_linearize h
  exact ⟨_, rfl, rfl, hreduced, hsingle, hwrites rfl⟩

end ThreeAddress
