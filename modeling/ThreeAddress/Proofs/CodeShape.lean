import ThreeAddress.Proofs.Linearization

/-!
# The shape of linearized code

What the code of a program looks like, whatever the program (`ShapedFor`). The instruction at each
position writes the temporary of that number or ends a statement; operators work on places; and a
temporary is written to be read once, by an instruction further on in the same statement.

That every temporary is read once is a matter of accounts. In the code of an expression each
temporary is read as often as it is written, if the operand that the code comes with is counted as
read (`Expr.Linearizes.tempReads_eq`). The balance is kept by each part of the code on its own, and
it does not matter which numbers the temporaries have. These only say where the one read can be:
behind the write, as no instruction reads a temporary of its own number or a higher one.
-/

set_option autoImplicit false

namespace ThreeAddress

/-! ## What code reads and writes

Counts and lists that are additive: each of them, for code put together from two parts, is the sum
or the row of what it is for the parts. The proofs below work with nothing else. -/

/-- Whether the operand is the temporary of this number. -/
def Operand.isTemp (n : Nat) : Operand → Bool
  | place p => p = .temp n
  | const _ => false

/-- How often the code reads a temporary. -/
def tempReads (n : Nat) (code : List Instr) : Nat :=
  (code.flatMap (·.value.operands)).countP (·.isTemp n)

/-- The temporaries that the code writes, in order. -/
def tempWrites (code : List Instr) : List Nat :=
  code.filterMap fun instr =>
    match instr.dest with
    | .temp n => some n
    | .var _ => none

/-- The variables that the code writes, in order, and what each of the writes was made for. -/
def varWrites (code : List Instr) : List (String × Span) :=
  code.filterMap fun instr =>
    match instr.dest with
    | .temp _ => none
    | .var x => some (x, instr.span)

/-- The targets of assignments, in order, and where each of the assignments stands. -/
def assignments (stmts : List Stmt) : List (String × Span) :=
  stmts.filterMap fun
    | .assign target _ span => some (target.name, span)
    | .unsupported _ _ => none

/-- The code reads the temporary, and that before it writes a variable or while it first does. What
reads it may be the write to the variable itself, as the copy into a target does. -/
def ReadSoon (n : Nat) (code : List Instr) : Prop :=
  ∃ (between : List Instr) (reader : Instr) (behind : List Instr),
    code = between ++ reader :: behind ∧ varWrites between = [] ∧
      .place (.temp n) ∈ reader.value.operands

section

variable {n : Nat} {code rest : List Instr} {instr : Instr} {a : Operand}

theorem Operand.isTemp_iff : a.isTemp n ↔ a = .place (.temp n) := by
  cases a <;> simp [isTemp]

@[simp] theorem tempReads_nil : tempReads n [] = 0 := rfl

/-- Reads are counted by occurrence, so an instruction with the same operand twice counts twice. -/
theorem tempReads_append :
    tempReads n (code ++ rest) = tempReads n code + tempReads n rest := by
  rw [tempReads, List.flatMap_append, List.countP_append, tempReads, tempReads]

theorem tempReads_singleton :
    tempReads n [instr] = instr.value.operands.countP (·.isTemp n) := by
  rw [tempReads, List.flatMap_singleton]

/-- A temporary is read if and only if some instruction has it for an operand. -/
theorem tempReads_pos_iff :
    0 < tempReads n code ↔ ∃ instr ∈ code, .place (.temp n) ∈ instr.value.operands := by
  simp only [tempReads, List.countP_pos_iff, List.mem_flatMap, Operand.isTemp_iff]
  constructor
  · rintro ⟨_, ⟨instr, hinstr, ha⟩, rfl⟩
    exact ⟨instr, hinstr, ha⟩
  · rintro ⟨instr, hinstr, ha⟩
    exact ⟨_, ⟨instr, hinstr, ha⟩, rfl⟩

theorem tempWrites_append : tempWrites (code ++ rest) = tempWrites code ++ tempWrites rest :=
  List.filterMap_append

theorem mem_tempWrites_iff : n ∈ tempWrites code ↔ ∃ instr ∈ code, instr.dest = .temp n := by
  simp only [tempWrites, List.mem_filterMap]
  apply exists_congr
  intro instr
  apply and_congr_right
  intro _
  cases instr.dest <;> simp

theorem varWrites_append : varWrites (code ++ rest) = varWrites code ++ varWrites rest :=
  List.filterMap_append

theorem varWrites_eq_nil_iff : varWrites code = [] ↔ ∀ instr ∈ code, ∃ n, instr.dest = .temp n := by
  simp only [varWrites, List.filterMap_eq_nil_iff]
  apply forall_congr'
  intro instr
  apply imp_congr_right
  intro _
  cases instr.dest <;> simp

theorem ReadSoon.append (h : ReadSoon n code) (rest : List Instr) : ReadSoon n (code ++ rest) := by
  obtain ⟨between, reader, behind, rfl, hbetween, hreader⟩ := h
  refine ⟨between, reader, behind ++ rest, ?_, hbetween, hreader⟩
  rw [List.append_assoc, List.cons_append]

end

/-! ## The shape

Stated for the whole code and by position, with what stands before an instruction and after it. A
statement by instruction alone could not say that a temporary is read behind its write, nor that its
number is the position. -/

/-- Both operands of an operator between two are places, and so is that of a sign, which is always a
minus; but a minus may stand in front of the one constant that has no opposite. No text has that for
a literal, so it is found only where statements were made otherwise. -/
def Computation.Shaped : Computation → Prop
  | copy _ => True
  | unary op a => op = .neg ∧ ((∃ p, a = .place p) ∨ a = .const (.int Int64.minValue))
  | binary _ a b => ∃ p q, a = .place p ∧ b = .place q

/-- Three-address code that was made for some statements. -/
structure ShapedFor (stmts : List Stmt) (code : List Instr) : Prop where
  /-- The position of an instruction is the number of the temporary that it writes, if it does not
  write a variable. -/
  numbered : ∀ (before : List Instr) (instr : Instr) (after : List Instr),
    code = before ++ instr :: after →
      instr.dest = .temp before.length ∨ ∃ x, instr.dest = .var x
  /-- Every temporary that is written is read once, and that is behind the write and no later than
  the next write to a variable. -/
  read : ∀ (before : List Instr) (instr : Instr) (after : List Instr) (n : Nat),
    code = before ++ instr :: after → instr.dest = .temp n →
      tempReads n code = 1 ∧ ReadSoon n after
  shaped : ∀ instr ∈ code, instr.value.Shaped
  /-- A variable is written by a copy. -/
  copy : ∀ instr ∈ code, ∀ x, instr.dest = .var x → ∃ a, instr.value = .copy a
  /-- There is one write to a variable for each assignment. -/
  writes : varWrites code = assignments stmts

/-! ## Forms of instructions

Which operands an instruction has is decided where it is made. For an operator between two both were
settled, and a settled operand is a place; for a sign the operand was one that could not be negated
at once. -/

/-- The only constant that cannot be negated is the least integer. All others are negated while the
code is made and leave no instruction. -/
theorem Operand.shaped_of_negated? {a : Operand} (h : a.negated? = none) :
    (∃ p, a = .place p) ∨ a = .const (.int Int64.minValue) := by
  cases a with
  | place p => exact .inl ⟨p, rfl⟩
  | const c =>
    right
    cases c with
    | float x => cases h
    | int n =>
      -- negation fails out of range only, and of all integers the least alone has its opposite
      -- there
      have hrange : ¬(leastInt ≤ -n.toInt ∧ -n.toInt ≤ greatestInt) := by
        intro hrange
        simp [negated?, const?, Number.unary, Number.exact, hrange, Except.toOption] at h
      have hleast : leastInt = -2 ^ 63 := by decide
      have hgreatest : greatestInt = 2 ^ 63 - 1 := by decide
      have hle := n.le_toInt
      have hlt := n.toInt_lt
      have hn : n.toInt = Int64.minValue.toInt := by
        rw [Int64.toInt_minValue]
        omega
      rw [Int64.toInt_inj.mp hn]

section

variable {before : Nat} {span : Span} {code : List Instr} {a a' : Operand}

theorem exists_place_of_settle (h : a.settle before span = (code, a')) :
    ∃ p, a' = .place p := by
  cases a with
  | place p => exact ⟨p, (congrArg Prod.snd h).symm⟩
  | const c => exact ⟨.temp before, (congrArg Prod.snd h).symm⟩

/-- Settling writes copies only, and every copy is of the right form. -/
theorem shaped_settle (h : a.settle before span = (code, a')) :
    ∀ instr ∈ code, instr.value.Shaped := by
  obtain rfl : (a.settle before span).1 = code := congrArg Prod.fst h
  cases a with
  | place p => exact List.forall_mem_nil _
  | const c => exact List.forall_mem_singleton.mpr trivial

end

/-- By the rules: only those for a sign and for a binary operator add an instruction of their own.
-/
theorem Expr.Linearizes.shaped {e : Expr} {before : Nat} {code : List Instr} {a : Operand}
    (h : e.Linearizes before code a) : ∀ instr ∈ code, instr.value.Shaped := by
  induction h with
  | literal => exact List.forall_mem_nil _
  | paren _ ih => exact ih
  | pos _ ih => exact ih
  | negated _ _ ih => exact ih
  | @neg opSpan span operand before code a _ hneg ih =>
    exact List.forall_mem_append.mpr
      ⟨ih, List.forall_mem_singleton.mpr ⟨rfl, a.shaped_of_negated? hneg⟩⟩
  | binary _ _ hfirst hsecond ihl ihr =>
    obtain ⟨p, hp⟩ := exists_place_of_settle hfirst
    obtain ⟨q, hq⟩ := exists_place_of_settle hsecond
    simp only [List.forall_mem_append, List.forall_mem_singleton]
    exact ⟨⟨⟨⟨ihl, ihr⟩, shaped_settle hfirst⟩, shaped_settle hsecond⟩, p, q, hp, hq⟩

/-! ## Accounts of temporaries

The operand is added as a read that is still to come. With it the books balance after every rule:
what the code of a side leaves unread is its operand, and the instruction that joins the sides reads
exactly the two. -/

section

variable {n before : Nat} {span : Span} {code : List Instr} {a a' : Operand}

/-- A constant that is put into a temporary is read from there, and a place where it was. Settling
adds a write and a read of the same temporary, or neither. -/
theorem tempReads_settle (h : a.settle before span = (code, a')) :
    tempReads n code + [a'].countP (·.isTemp n)
      = (tempWrites code).count n + [a].countP (·.isTemp n) := by
  obtain rfl : (a.settle before span).1 = code := congrArg Prod.fst h
  obtain rfl : (a.settle before span).2 = a' := congrArg Prod.snd h
  cases a with
  | place p => rw [Operand.settle, tempReads_nil, tempWrites, List.filterMap_nil, List.count_nil]
  | const c =>
    simp [Operand.settle, tempReads_singleton, tempWrites, Computation.operands, Operand.isTemp,
      List.count_cons, List.countP_cons]

/-- At the end of the code the last temporary is written, and not read yet. -/
theorem tempWrites_concat (n dest : Nat) (code : List Instr) (c : Computation) (span : Span) :
    (tempWrites (code ++ [⟨.temp dest, c, span⟩])).count n
      = (tempWrites code).count n + [Operand.place (.temp dest)].countP (·.isTemp n) := by
  rw [tempWrites_append, List.count_append]
  simp [tempWrites, Operand.isTemp, List.count_cons, List.countP_cons]

end

/-- In the code of an expression and its operand each temporary is read as often as it is written.
-/
theorem Expr.Linearizes.tempReads_eq {e : Expr} {before : Nat} {code : List Instr} {a : Operand}
    (h : e.Linearizes before code a) (n : Nat) :
    tempReads n code + [a].countP (·.isTemp n) = (tempWrites code).count n := by
  induction h with
  | @literal value => cases value <;> rfl
  | paren _ ih => exact ih
  | pos _ ih => exact ih
  | @negated opSpan span operand before code a c _ hneg ih =>
    -- what is carried out at once was a constant, and no temporary
    have ha : [a].countP (·.isTemp n) = 0 := by
      cases a with
      | place p => cases hneg
      | const c => rfl
    rw [← ih, ha]
    rfl
  | neg _ _ ih =>
    rw [tempWrites_concat, tempReads_append, tempReads_singleton, ← ih]
    rfl
  | @binary op opSpan span lhs rhs before left right first second a a' b b' _ _ hfirst hsecond
      ihl ihr =>
    have hfirst := tempReads_settle (n := n) hfirst
    have hsecond := tempReads_settle (n := n) hsecond
    have hboth : [a', b'].countP (·.isTemp n)
        = [a'].countP (·.isTemp n) + [b'].countP (·.isTemp n) := by
      rw [← List.countP_append, List.singleton_append]
    rw [tempWrites_concat, tempReads_append, tempReads_singleton, Computation.operands, hboth]
    simp only [tempReads_append, tempWrites_append, List.count_append]
    omega

/-! ## Statements

In a statement the account is closed, as the copy into the target reads the operand that was left
over. From here on numbers come in: in numbered code a temporary is not read before it is written,
so the one read must be behind the write. -/

theorem Numbered.of_append {first next : Nat} {code rest : List Instr}
    (h : Numbered first next (code ++ rest)) :
    Numbered first next code ∧ Numbered first (next + code.length) rest := by
  induction code generalizing next with
  | nil => exact ⟨trivial, h⟩
  | cons instr code ih =>
    obtain ⟨hdest, hreads, h⟩ := h
    obtain ⟨hcode, hrest⟩ := ih h
    rw [Nat.add_assoc, Nat.add_comm 1] at hrest
    exact ⟨⟨hdest, hreads, hcode⟩, hrest⟩

theorem Numbered.varWrites_eq_nil {first next : Nat} {code : List Instr}
    (h : Numbered first next code) : varWrites code = [] := by
  induction code generalizing next with
  | nil => rfl
  | cons instr code ih =>
    rw [varWrites_eq_nil_iff, List.forall_mem_cons, ← varWrites_eq_nil_iff]
    exact ⟨⟨next, h.1⟩, ih h.2.2⟩

/-- Numbered code reads no temporary from `next` on before it is written. What an instruction reads
has a number below its own. -/
theorem Numbered.tempReads_eq_zero {first next n : Nat} {code : List Instr}
    (h : Numbered first next code) (hn : next + code.length ≤ n + 1) : tempReads n code = 0 := by
  induction code generalizing next with
  | nil => rfl
  | cons instr code ih =>
    obtain ⟨-, hreads, hcode⟩ := h
    rw [List.length_cons] at hn
    have hrest := ih hcode (by omega)
    rw [← List.singleton_append, tempReads_append, hrest, tempReads_singleton, Nat.add_zero,
      List.countP_eq_zero]
    intro a ha htemp
    rw [Operand.isTemp_iff.mp htemp] at ha
    have hlt := (hreads _ ha).2
    omega

/-- If a temporary is read in numbered code or by the instruction after it, that is behind where it
is written, and no variable is written before that. -/
theorem Numbered.readSoon {first next : Nat} {pre inner : List Instr} {instr last : Instr}
    (h : Numbered first next (pre ++ instr :: inner))
    (hread : 0 < tempReads (next + pre.length) ((pre ++ instr :: inner) ++ [last])) :
    ReadSoon (next + pre.length) (inner ++ [last]) := by
  have hsplit : (pre ++ instr :: inner) ++ [last] = (pre ++ [instr]) ++ (inner ++ [last]) := by
    simp
  have hbefore : tempReads (next + pre.length) (pre ++ [instr]) = 0 := by
    rw [← List.singleton_append, ← List.append_assoc] at h
    apply h.of_append.1.tempReads_eq_zero
    rw [List.length_append, List.length_singleton, Nat.add_assoc]
  rw [hsplit, tempReads_append, hbefore, Nat.zero_add, tempReads_pos_iff] at hread
  obtain ⟨reader, hmem, hreader⟩ := hread
  obtain ⟨between, behind, heq⟩ := List.append_of_mem hmem
  refine ⟨between, reader, behind, heq, ?_, hreader⟩
  -- what stands between is a part of the numbered code
  have hinner : varWrites inner = [] := h.of_append.2.2.2.varWrites_eq_nil
  rcases List.append_eq_append_iff.mp heq with ⟨more, rfl, hmore⟩ | ⟨more, rfl, -⟩
  · cases more with
    | nil => rwa [List.append_nil]
    | cons _ more => simp at hmore
  · rw [varWrites_append, List.append_eq_nil_iff] at hinner
    exact hinner.1

namespace Stmt

theorem linearize_assign (target : Ident) (value : Expr) (span : Span) (before : Nat) :
    (assign target value span).linearize before = (value.linearize before).1 ++
      [⟨.var target.name, .copy (value.linearize before).2, span⟩] := rfl

variable {stmt : Stmt} {before n : Nat} {pre post : List Instr} {instr : Instr}

/-- The copy at the end has any operand, so all depends on the code of the expression. -/
theorem shaped_linearize (stmt : Stmt) (before : Nat) :
    ∀ instr ∈ stmt.linearize before, instr.value.Shaped := by
  cases stmt with
  | unsupported kind span => exact List.forall_mem_nil _
  | assign target value span =>
    rw [linearize_assign, List.forall_mem_append, List.forall_mem_singleton]
    exact ⟨(value.linearizes before).shaped, trivial⟩

/-- The only instruction of a statement that writes a variable is its last, and that is a copy. -/
theorem copy_of_linearize {x : String} (h : instr ∈ stmt.linearize before)
    (hdest : instr.dest = .var x) : ∃ a, instr.value = .copy a := by
  cases stmt with
  | unsupported kind span => cases h
  | assign target value span =>
    rcases List.mem_append.mp h with h | h
    · have hnone := (value.linearizes before).numbered.1.varWrites_eq_nil
      obtain ⟨n, hn⟩ := varWrites_eq_nil_iff.mp hnone _ h
      cases hn.symm.trans hdest
    · rw [List.mem_singleton.mp h]
      exact ⟨_, rfl⟩

/-- A statement writes one variable, its target, if it is an assignment, and none if it is not. -/
theorem varWrites_linearize (stmt : Stmt) (before : Nat) :
    varWrites (stmt.linearize before) = assignments [stmt] := by
  cases stmt with
  | unsupported kind span => rfl
  | assign target value span =>
    rw [linearize_assign, varWrites_append, (value.linearizes before).numbered.1.varWrites_eq_nil]
    rfl

/-- In a statement each temporary is read as often as it is written. The copy into the target reads
the operand, and with that the account of the expression is closed. -/
theorem tempReads_linearize (stmt : Stmt) (before n : Nat) :
    tempReads n (stmt.linearize before) = (tempWrites (stmt.linearize before)).count n := by
  cases stmt with
  | unsupported kind span => rfl
  | assign target value span =>
    rw [linearize_assign, tempReads_append, tempWrites_append, List.count_append,
      ← (value.linearizes before).tempReads_eq, tempReads_singleton]
    rfl

/-- An instruction that does not end the statement writes the temporary of its own number, and an
instruction further on in the statement reads it. Where it is read is not told by the recursion:
that it is read at all comes from the accounts, and that this is further on from the numbers. -/
theorem read_of_linearize (h : stmt.linearize before = pre ++ instr :: post) :
    (∃ x, instr.dest = .var x) ∨
      instr.dest = .temp (before + pre.length) ∧ ReadSoon (before + pre.length) post := by
  cases stmt with
  | unsupported kind span => simp [linearize] at h
  | assign target value span =>
    have hreads := tempReads_linearize (.assign target value span) before (before + pre.length)
    obtain ⟨hcode, -⟩ := (value.linearizes before).numbered
    rw [h] at hreads
    rw [linearize_assign] at h
    -- the instruction is the last one, the copy into the target, or belongs to the expression
    rcases List.eq_nil_or_concat post with rfl | ⟨inner, last, rfl⟩
    · obtain ⟨-, hlast⟩ := List.append_inj' h rfl
      cases hlast
      exact .inl ⟨target.name, rfl⟩
    · right
      rw [List.concat_eq_append] at h hreads ⊢
      rw [← List.cons_append, ← List.append_assoc] at h hreads
      obtain ⟨hvalue, -⟩ := List.append_inj' h rfl
      rw [hvalue] at hcode
      have hdest : instr.dest = .temp (before + pre.length) := hcode.of_append.2.1
      refine ⟨hdest, hcode.readSoon ?_⟩
      rw [hreads, List.count_pos_iff, mem_tempWrites_iff]
      exact ⟨instr, by simp, hdest⟩

end Stmt

/-! ## Programs

Each property of a statement is carried over by induction on the statements. Only the place of a
read is more than a sum: it is found in the statement that has the write. -/

section

variable {stmts : List Stmt} {before n : Nat} {pre post : List Instr} {instr : Instr}

/-- Balanced statements in a row are balanced. The numbers of their temporaries do not come into it.
-/
theorem tempReads_linearizeFrom (stmts : List Stmt) (before n : Nat) :
    tempReads n (linearizeFrom before stmts)
      = (tempWrites (linearizeFrom before stmts)).count n := by
  induction stmts generalizing before with
  | nil => rfl
  | cons stmt stmts ih =>
    rw [linearizeFrom, tempReads_append, tempWrites_append, List.count_append,
      stmt.tempReads_linearize, ih]

/-- Writes to variables come in the order of the assignments. -/
theorem varWrites_linearizeFrom (stmts : List Stmt) (before : Nat) :
    varWrites (linearizeFrom before stmts) = assignments stmts := by
  induction stmts generalizing before with
  | nil => rfl
  | cons stmt stmts ih =>
    have hassignments : assignments (stmt :: stmts) = assignments [stmt] ++ assignments stmts :=
      List.filterMap_append (l := [stmt])
    rw [linearizeFrom, varWrites_append, stmt.varWrites_linearize, ih, hassignments]

theorem mem_linearizeFrom (h : instr ∈ linearizeFrom before stmts) :
    ∃ (stmt : Stmt) (first : Nat), instr ∈ stmt.linearize first := by
  induction stmts generalizing before with
  | nil => cases h
  | cons stmt stmts ih =>
    rcases List.mem_append.mp h with h | h
    · exact ⟨stmt, before, h⟩
    · exact ih h

/-- An instruction of a program that does not end a statement writes the temporary of its own
number, and an instruction further on in the statement reads it. -/
theorem read_of_linearizeFrom (h : linearizeFrom before stmts = pre ++ instr :: post) :
    (∃ x, instr.dest = .var x) ∨
      instr.dest = .temp (before + pre.length) ∧ ReadSoon (before + pre.length) post := by
  induction stmts generalizing before pre with
  | nil => simp [linearizeFrom] at h
  | cons stmt stmts ih =>
    rw [linearizeFrom] at h
    -- the instruction stands in the first statement or behind it
    rcases List.append_eq_append_iff.mp h with ⟨more, rfl, hmore⟩ | ⟨more, hmore, hpost⟩
    · rw [List.length_append, ← Nat.add_assoc]
      exact ih hmore
    · cases more with
      | nil =>
        obtain rfl : stmt.linearize before = pre := by simpa using hmore
        have hstmts : linearizeFrom (before + (stmt.linearize before).length) stmts
            = [] ++ instr :: post := hpost.symm
        have hread := ih hstmts
        rwa [List.length_nil, Nat.add_zero] at hread
      | cons first inner =>
        obtain ⟨rfl, rfl⟩ := List.cons.inj hpost
        refine (Stmt.read_of_linearize hmore).imp_right (And.imp_right ?_)
        exact fun hread => hread.append _

/-- Instructions that write the temporaries of their own numbers write them in order. Instructions
that write variables take numbers too, which are left out here. -/
theorem tempWrites_sublist {code : List Instr}
    (h : ∀ (pre : List Instr) (instr : Instr) (post : List Instr), code = pre ++ instr :: post →
      instr.dest = .temp (before + pre.length) ∨ ∃ x, instr.dest = .var x) :
    (tempWrites code).Sublist (List.range' before code.length) := by
  induction code generalizing before with
  | nil => exact List.nil_sublist _
  | cons instr code ih =>
    have hcode : (tempWrites code).Sublist (List.range' (before + 1) code.length) := by
      apply ih
      rintro pre instr' post rfl
      have := h (instr :: pre) instr' post rfl
      rwa [List.length_cons, Nat.add_comm pre.length, ← Nat.add_assoc] at this
    rw [List.length_cons, List.range'_succ]
    rcases h [] instr code rfl with hdest | ⟨x, hdest⟩
    · have hcons : tempWrites (instr :: code) = before :: tempWrites code := by
        simp [tempWrites, hdest]
      rw [hcons]
      exact hcode.cons_cons before
    · have hcons : tempWrites (instr :: code) = tempWrites code := by
        simp [tempWrites, hdest]
      rw [hcons]
      exact hcode.cons before

end

/-- The code of a program has the three-address shape: each instruction writes the temporary of its
own number or ends a statement, by a copy into the target; operators work on places; and a temporary
is read once, in the statement in which it is written and behind that write. The accounts of all
statements together say that a temporary is read as often as it is written, and as positions are all
different that is once. -/
theorem shapedFor_linearize (stmts : List Stmt) : ShapedFor stmts (linearize stmts) := by
  have hnumbered : ∀ (before : List Instr) (instr : Instr) (after : List Instr),
      linearize stmts = before ++ instr :: after →
        instr.dest = .temp (0 + before.length) ∨ ∃ x, instr.dest = .var x := by
    intro before instr after h
    exact (read_of_linearizeFrom h).symm.imp_left And.left
  refine ⟨?_, ?_, ?_, ?_, varWrites_linearizeFrom stmts 0⟩
  · simpa only [Nat.zero_add] using hnumbered
  · intro before instr after n h hdest
    have hwritten : n ∈ tempWrites (linearize stmts) :=
      mem_tempWrites_iff.mpr ⟨instr, by rw [h]; simp, hdest⟩
    -- positions are all different, so a temporary is written once and, by the accounts, read
    -- once
    have hnodup := (tempWrites_sublist hnumbered).nodup List.nodup_range'
    constructor
    · rw [linearize, tempReads_linearizeFrom]
      exact List.count_eq_one_of_mem hnodup hwritten
    · rcases read_of_linearizeFrom h with ⟨x, hx⟩ | ⟨hn, hread⟩
      · cases hx.symm.trans hdest
      · cases hn.symm.trans hdest
        exact hread
  · intro instr hinstr
    obtain ⟨stmt, first, hstmt⟩ := mem_linearizeFrom hinstr
    exact stmt.shaped_linearize first instr hstmt
  · intro instr hinstr x hdest
    obtain ⟨stmt, first, hstmt⟩ := mem_linearizeFrom hinstr
    exact Stmt.copy_of_linearize hstmt hdest

end ThreeAddress
