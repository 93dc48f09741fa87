import Mathlib.Data.Set.Basic
import ThreeAddress.Proofs.Linearization

/-!
# The sweep, one instruction at a time

What visiting an instruction can come to (`Facts.Visit`), and when what is known of a place can be
trusted.

A temporary that is known as a copy stays known as one when its source is written again, and is then
taken for something that it is not. So not every place is `current`: a write makes its own place
current, and a place that is known as a copy of the one written is current no more
(`Facts.currentAfter`). Code that reads current places only (`ReadsCurrent`) is folded rightly, and
the code of a program is of this kind (`readsCurrent_linearize`): a variable is written by the last
instruction of a statement, and no temporary is read in a later statement.
-/

set_option autoImplicit false

namespace ThreeAddress

/-! ## Operands as they are known

`resolve` takes one step along a copy and then looks for a value. These two lemmas say all that the
proofs need of an outcome that is a place. -/

namespace Facts

variable {facts : Facts} {a : Operand} {p q : Place}

/-- What an operand is known as is the operand itself or what it copies. There is no third case, as
copies are followed by one step only. -/
theorem eq_or_source_of_resolve (h : facts.resolve a = .place q) :
    a = .place q ∨ ∃ p, a = .place p ∧ facts.source? p = some q := by
  cases a with
  | const n => cases h
  | place p =>
    simp only [resolve] at h
    split at h
    · cases h
    next =>
      simp only [Operand.place.injEq] at h
      cases hsource : facts.source? p with
      | none => exact .inl (by rw [← h, hsource]; rfl)
      | some source => exact .inr ⟨p, rfl, by rw [hsource, ← h, hsource]; rfl⟩

/-- A place that an operand is known as has no known value. -/
theorem value?_of_resolve (h : facts.resolve a = .place q) : facts.value? q = none := by
  cases a with
  | const n => cases h
  | place p =>
    simp only [resolve] at h
    split at h
    · cases h
    next hvalue =>
      simp only [Operand.place.injEq] at h
      rwa [h] at hvalue

/-! ## The cases of a visit

The relation `Visit` is the code of `visit` without its failures, one constructor for each way in
which an instruction is dealt with. Proofs about the sweep go by its cases, so that the code is
opened in this section only. -/

/-- What a visit can leave of an instruction, and know after it. -/
inductive Visit (facts : Facts) (instr : Instr) : Option Instr → Facts → Prop
  /-- The operands are constants, so what is written is known. -/
  | folded {n : Number}
      (hvalue : (instr.value.mapOperands facts.resolve).eval? = some (.ok n)) :
      Visit facts instr
        (if instr.dest.isTemp then none else some { instr with value := .copy (.const n) })
        (facts.assign instr.dest n)
  /-- A temporary that is a mere copy needs no instruction. -/
  | linked {index : Nat} {source : Place}
      (hvalue : (instr.value.mapOperands facts.resolve).eval? = none)
      (hdest : instr.dest = .temp index)
      (hcopy : (instr.value.mapOperands facts.resolve).simplify = .copy (.place source)) :
      Visit facts instr none (facts.link index source)
  | kept (hvalue : (instr.value.mapOperands facts.resolve).eval? = none) :
      Visit facts instr
        (some { instr with value := (instr.value.mapOperands facts.resolve).simplify })
        (facts.forget instr.dest)

variable {facts' : Facts} {instr : Instr} {left : Option Instr}

theorem visit_of_ok (h : facts.visit instr = .ok (left, facts')) :
    facts.Visit instr left facts' := by
  simp only [visit] at h
  split at h
  · cases h
  next n hvalue => cases h; exact .folded hvalue
  next hvalue =>
    split at h
    next index source hdest hcopy => cases h; exact .linked hvalue hdest hcopy
    next => cases h; exact .kept hvalue

/-- A visit fails by carrying out the instruction, and so only with operands that are all known. -/
theorem visit_of_error {diagnostic : Diagnostic} (h : facts.visit instr = .error diagnostic) :
    ∃ fault, (instr.value.mapOperands facts.resolve).eval? = some (.error fault) ∧
      diagnostic = .evaluation instr.span fault := by
  simp only [visit] at h
  split at h
  next fault hvalue => cases h; exact ⟨fault, hvalue, rfl⟩
  next => cases h
  next => split at h <;> cases h

/-! The sweep of some code, in terms of the first instruction and the rest. -/

section

variable {code : List Instr}

theorem sweep_cons_ok {result : List Instr}
    (h : facts.sweep (instr :: code) = .ok (result, facts')) :
    ∃ left next rest, facts.visit instr = .ok (left, next) ∧
      next.sweep code = .ok (rest, facts') ∧ result = left.toList ++ rest := by
  simp only [sweep, bind, Except.bind] at h
  cases hvisit : facts.visit instr with
  | error diagnostic => rw [hvisit] at h; cases h
  | ok visited =>
    obtain ⟨left, next⟩ := visited
    rw [hvisit] at h
    simp only at h
    cases hsweep : next.sweep code with
    | error diagnostic => rw [hsweep] at h; cases h
    | ok swept =>
      obtain ⟨rest, last⟩ := swept
      rw [hsweep] at h
      cases h
      exact ⟨left, next, rest, rfl, hsweep, rfl⟩

theorem sweep_cons_error {diagnostic : Diagnostic}
    (h : facts.sweep (instr :: code) = .error diagnostic) :
    facts.visit instr = .error diagnostic ∨
      ∃ left next, facts.visit instr = .ok (left, next) ∧ next.sweep code = .error diagnostic := by
  simp only [sweep, bind, Except.bind] at h
  cases hvisit : facts.visit instr with
  | error diagnostic' => rw [hvisit] at h; exact .inl (by simpa using h)
  | ok visited =>
    obtain ⟨left, next⟩ := visited
    rw [hvisit] at h
    simp only at h
    cases hsweep : next.sweep code with
    | error diagnostic' =>
      rw [hsweep] at h
      exact .inr ⟨left, next, rfl, by rw [hsweep]; simpa using h⟩
    | ok swept => rw [hsweep] at h; cases h

end

/-! ## What a visit does to what is known

Frame lemmas: a visit learns or forgets something of the place that the instruction writes, and
leaves all else as it was. Of a place that is known as a copy of that one the fact stays and its
meaning changes, which is why `resolve` needs a condition where `source?` needs none. -/

theorem Visit.fact?_of_ne (h : facts.Visit instr left facts') (hp : p ≠ instr.dest) :
    facts'.fact? p = facts.fact? p := by
  cases h with
  | folded => simp [assign, fact?_learn, hp]
  | linked _ hdest => rw [hdest] at hp; simp [link, fact?_learn, hp]
  | kept => simp [fact?_forget, hp]

theorem Visit.source?_of_ne (h : facts.Visit instr left facts') (hp : p ≠ instr.dest) :
    facts'.source? p = facts.source? p := by
  simp only [source?, h.fact?_of_ne hp]

theorem Visit.value?_of_ne (h : facts.Visit instr left facts') (hp : p ≠ instr.dest) :
    facts'.value? p = facts.value? p := by
  simp only [value?, h.fact?_of_ne hp]

/-- A place that neither is the one written nor is known as a copy of it is known as before. -/
theorem Visit.resolve_of_ne (h : facts.Visit instr left facts') (hp : p ≠ instr.dest)
    (hsource : facts.source? p ≠ some instr.dest) :
    facts'.resolve (.place p) = facts.resolve (.place p) := by
  have hne : (facts.source? p).getD p ≠ instr.dest := by
    cases hs : facts.source? p with
    | none => exact hp
    | some source => rintro rfl; exact hsource hs
  simp only [resolve, h.source?_of_ne hp, h.value?_of_ne hne]

theorem resolve_assign_self (facts : Facts) (p : Place) (n : Number) :
    (facts.assign p n).resolve (.place p) = .const n := by
  simp [resolve, source?, value?, assign]

theorem resolve_forget_self (facts : Facts) (p : Place) :
    (facts.forget p).resolve (.place p) = .place p := by
  simp [resolve, source?, value?]

/-- A temporary is known as what it copies, unless that has a known value. What a visit links has
none, since it would have been resolved to that. -/
theorem resolve_link_self {source : Place} (index : Nat) (h : facts.value? source = none) :
    (facts.link index source).resolve (.place (.temp index)) = .place source := by
  have hvalue : (facts.link index source).value? source = none := by
    by_cases hs : source = .temp index
    · simp [value?, link, hs]
    · simpa [value?, link, fact?_learn, hs] using h
  have hsource : (facts.link index source).source? (.temp index) = some source := by
    simp [source?, link]
  simp only [resolve, hsource, Option.getD_some, hvalue]

end Facts

/-! ## Simplification

There are two rewrites, and both look at the right operand only. What is left reads no more than
what was there. -/

namespace Computation

/-- Simplification does nothing, or drops a zero or a one on the right. -/
theorem simplify_cases (c : Computation) : c.simplify = c ∨
    (∃ a, c = .binary .add a (.const (.int 0)) ∧ c.simplify = .copy a) ∨
    ∃ a, c = .binary .mul a (.const (.int 1)) ∧ c.simplify = .copy a := by
  unfold simplify
  split
  next a => exact .inr (.inl ⟨a, rfl, rfl⟩)
  next a => exact .inr (.inr ⟨a, rfl, rfl⟩)
  next => exact .inl rfl

/-- Simplification brings in no operand. -/
theorem mem_operands_simplify {c : Computation} {a : Operand} (h : a ∈ c.simplify.operands) :
    a ∈ c.operands := by
  rcases c.simplify_cases with hc | ⟨b, rfl, hc⟩ | ⟨b, rfl, hc⟩
  · rwa [hc] at h
  · rw [hc] at h
    rw [List.mem_singleton.mp h]
    exact List.mem_cons_self
  · rw [hc] at h
    rw [List.mem_singleton.mp h]
    exact List.mem_cons_self

theorem mem_operands_of_simplify {c : Computation} {a : Operand} (h : c.simplify = .copy a) :
    a ∈ c.operands := by
  apply mem_operands_simplify
  rw [h]
  exact List.mem_singleton_self a

theorem operands_mapOperands (f : Operand → Operand) (c : Computation) :
    (c.mapOperands f).operands = c.operands.map f := by
  cases c <;> rfl

end Computation

/-- A place that is read in what is left of a computation is what an operand is known as. -/
theorem Facts.exists_operand_of_simplified {facts : Facts} {c : Computation} {p : Place}
    (h : .place p ∈ (c.mapOperands facts.resolve).simplify.operands) :
    ∃ a ∈ c.operands, facts.resolve a = .place p := by
  have hmem := Computation.mem_operands_simplify h
  rw [Computation.operands_mapOperands] at hmem
  exact List.mem_map.mp hmem

theorem Facts.exists_operand_of_simplify {facts : Facts} {c : Computation} {source : Place}
    (h : (c.mapOperands facts.resolve).simplify = .copy (.place source)) :
    ∃ a ∈ c.operands, facts.resolve a = .place source := by
  apply exists_operand_of_simplified
  rw [h]
  exact List.mem_singleton_self _

/-! ## Current places

A set of places is carried along the sweep: those for which what is known is right. A write takes
places out of it, and nothing but a write brings one in, so which places are current can be told
from the code and the facts. -/

/-- The places that are current after a write to `d`, if `current` are so before. -/
def Facts.currentAfter (facts : Facts) (current : Set Place) (d : Place) : Set Place :=
  {p | p = d ∨ (p ∈ current ∧ facts.source? p ≠ some d)}

/-- In the sweep of the code that begins with these facts, only current places are read. Where a
visit fails nothing is asked of the rest, as there is no rest of the sweep. -/
def ReadsCurrent : Facts → Set Place → List Instr → Prop
  | _, _, [] => True
  | facts, current, instr :: code =>
    (∀ p, .place p ∈ instr.value.operands → p ∈ current) ∧
      ∀ left facts', facts.visit instr = .ok (left, facts') →
        ReadsCurrent facts' (facts.currentAfter current instr.dest) code

/-- Variables are current at all times, for they are never known as copies. So a program may be
looked at through its variables, whatever becomes of temporaries. -/
structure Facts.Tidy (facts : Facts) (current : Set Place) : Prop where
  var_mem : ∀ x, .var x ∈ current
  source?_var : ∀ x, facts.source? (.var x) = none

theorem Facts.tidy_empty : Facts.empty.Tidy (Set.range Place.var) :=
  ⟨fun x => ⟨x, rfl⟩, fun _ => rfl⟩

theorem Facts.Visit.tidy {facts facts' : Facts} {instr : Instr} {left : Option Instr}
    {current : Set Place} (h : facts.Visit instr left facts') (htidy : facts.Tidy current) :
    facts'.Tidy (facts.currentAfter current instr.dest) where
  var_mem x := .inr ⟨htidy.var_mem x, by rw [htidy.source?_var x]; rintro ⟨⟩⟩
  source?_var x := by
    by_cases hx : .var x = instr.dest
    · cases h with
      | folded => simp [source?, assign, hx]
      | linked _ hdest => rw [hdest] at hx; cases hx
      | kept => simp [source?, hx]
    · rw [h.source?_of_ne hx, htidy.source?_var x]

/-! ## Copies of written temporaries

Only temporaries are known as copies, and what they copy, if it is a temporary, was written
before. -/

/-- Copies are temporaries, and copy no temporary but those in `written`. It follows that no
temporary is known as a copy of one that is written for the first time. -/
def Facts.CopiesOf (facts : Facts) (written : Set Nat) : Prop :=
  ∀ p q, facts.source? p = some q → p.isTemp = true ∧ ∀ n, q = .temp n → n ∈ written

theorem Facts.copiesOf_empty (written : Set Nat) : Facts.empty.CopiesOf written := by
  rintro p q ⟨⟩

theorem Facts.CopiesOf.mono {facts : Facts} {written written' : Set Nat}
    (h : facts.CopiesOf written) (hle : written ⊆ written') : facts.CopiesOf written' :=
  fun p q hsource => ⟨(h p q hsource).1, fun n hn => hle ((h p q hsource).2 n hn)⟩

/-- If an instruction reads written temporaries only, a copy that it makes is of one of them, or of
what one of them copies. -/
theorem Facts.Visit.copiesOf {facts facts' : Facts} {instr : Instr} {left : Option Instr}
    {written : Set Nat} (h : facts.Visit instr left facts') (hcopies : facts.CopiesOf written)
    (hreads : ∀ n, .place (.temp n) ∈ instr.value.operands → n ∈ written) :
    facts'.CopiesOf written := by
  intro p q hsource
  by_cases hp : p = instr.dest
  · cases h with
    | folded => simp [source?, assign, hp] at hsource
    | kept => simp [source?, hp] at hsource
    | @linked index source _ hdest hcopy =>
      obtain rfl : source = q := by simpa [source?, link, hp, hdest] using hsource
      refine ⟨by rw [hp, hdest]; rfl, ?_⟩
      intro n hn
      obtain ⟨a, ha, hresolve⟩ := exists_operand_of_simplify hcopy
      rcases eq_or_source_of_resolve hresolve with rfl | ⟨p', rfl, hp'⟩
      · exact hreads n (hn ▸ ha)
      · exact (hcopies p' source hp').2 n hn
  · rw [h.source?_of_ne hp] at hsource
    exact hcopies p q hsource

/-! ## The code of a program reads current places -/

/-- All variables are in the set, and the temporaries from `first` on that come before `next`. -/
def Covers (current : Set Place) (first next : Nat) : Prop :=
  ∀ p, (Operand.place p).Between first next → p ∈ current

/-- Numbered code stays among the temporaries it is given: each is read while it is current.

The induction is on the code, for all facts that the sweep might come to it with. What comes behind
it is a hypothesis, so that statements can be put in a row. -/
theorem Numbered.readsCurrent {first next : Nat} {code rest : List Instr} {facts : Facts}
    {current : Set Place} (h : Numbered first next code)
    (hcopies : facts.CopiesOf {n | n < next}) (hcovers : Covers current first next)
    (hrest : ∀ facts' current', facts'.CopiesOf {n | n < next + code.length} →
      Covers current' first (next + code.length) → ReadsCurrent facts' current' rest) :
    ReadsCurrent facts current (code ++ rest) := by
  induction code generalizing next facts current with
  | nil => exact hrest facts current hcopies hcovers
  | cons instr code ih =>
    obtain ⟨hdest, hreads, hcode⟩ := h
    refine ⟨fun p hp => hcovers p (hreads _ hp), ?_⟩
    intro left facts' hvisit
    have hvisit := Facts.visit_of_ok hvisit
    have hlength : next + (instr :: code).length = next + 1 + code.length := by
      rw [List.length_cons, Nat.add_assoc, Nat.add_comm 1]
    rw [hlength] at hrest
    refine ih hcode ?_ ?_ hrest
    · exact (hvisit.copiesOf hcopies fun n hn => (hreads _ hn).2).mono
        fun n hn => Nat.lt_succ_of_lt hn
    · intro p hp
      by_cases hpd : p = instr.dest
      · exact .inl hpd
      -- no copy is of the temporary being written, which is new
      · refine .inr ⟨hcovers p ?_, ?_⟩
        · cases p with
          | var x => trivial
          | temp n =>
            have : n ≠ next := fun hn => hpd (hn ▸ hdest.symm)
            exact ⟨hp.1, Nat.lt_of_le_of_ne (Nat.le_of_lt_succ hp.2) this⟩
        · intro hsource
          exact absurd ((hcopies p _ hsource).2 next hdest) (Nat.lt_irrefl next)

/-- Statement by statement. The set is not fixed: before each statement it has all variables, and no
temporaries need be in it. -/
theorem readsCurrent_linearizeFrom (stmts : List Stmt) {before : Nat} {facts : Facts}
    {current : Set Place} (hcopies : facts.CopiesOf {n | n < before})
    (hcovers : Covers current before before) :
    ReadsCurrent facts current (linearizeFrom before stmts) := by
  induction stmts generalizing before facts current with
  | nil => trivial
  | cons stmt stmts ih =>
    cases stmt with
    | unsupported kind span => exact ih hcopies hcovers
    | assign target value span =>
      obtain ⟨hcode, ha⟩ := (value.linearizes before).numbered
      simp only [linearizeFrom, Stmt.linearize, List.append_assoc]
      apply hcode.readsCurrent hcopies hcovers
      intro facts' current' hcopies' hcovers'
      have hreads : ∀ p, .place p ∈ [(value.linearize before).2] →
          (Operand.place p).Between before (before + (value.linearize before).1.length) := by
        intro p hp
        rw [List.mem_singleton.mp hp]
        exact ha
      refine ⟨fun p hp => hcovers' p (hreads p hp), ?_⟩
      intro left facts'' hvisit
      have hvisit := Facts.visit_of_ok hvisit
      rw [List.length_append, ← Nat.add_assoc]
      apply ih
      · exact (hvisit.copiesOf hcopies' fun n hn => (hreads _ hn).2).mono
          fun n hn => Nat.lt_succ_of_lt hn
      -- of the temporaries none has to be current from here on
      · rintro (n | x) hp
        · exact absurd (Nat.lt_of_le_of_lt hp.1 hp.2) (Nat.lt_irrefl _)
        -- and a variable is never known as a copy
        · refine .inr ⟨hcovers' _ trivial, ?_⟩
          intro hsource
          exact Bool.noConfusion (hcopies' _ _ hsource).1

/-- The code of a program reads current places only. -/
theorem readsCurrent_linearize (stmts : List Stmt) :
    ReadsCurrent .empty (Set.range Place.var) (linearize stmts) := by
  apply readsCurrent_linearizeFrom stmts (Facts.copiesOf_empty _)
  rintro (n | x) hp
  · exact absurd hp.2 (Nat.not_lt_zero n)
  · exact ⟨x, rfl⟩

end ThreeAddress
