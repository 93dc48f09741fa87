import ThreeAddress.Proofs.Finiteness
import ThreeAddress.Proofs.NumberText

/-!
# The text of code

Code can be read off its text (`kinds_of_texts`), where no variable is called like a temporary.

A place begins as a name does, and a number with a digit or a minus before one. So an operand is
known by its text (`Operand.Over.text_inj`). A computation with an operator between its operands is
the only one with a blank in it. A minus before a number could be taken for a part of it; but the
signs that are left in code stand before places, or before the one integer that cannot be negated,
which begins with a minus itself.
-/

set_option autoImplicit false

namespace ThreeAddress

open ThreeAddress.ParserState

/-- The names that no temporary is written like. -/
def plainNames : Set String := {x | IsName x.toList ∧ ∀ n, x ≠ (Place.temp n).text}

/-! ## Cutting at a character

A text in which a character separates two parts has these parts determined by it, if the first does
not have the character. -/

/-- Used wherever a text is put together with a blank or a line end between the parts. -/
theorem cut_at {stop : Char} {cs ds rest rest' : List Char} (hcs : stop ∉ cs) (hds : stop ∉ ds)
    (h : cs ++ stop :: rest = ds ++ stop :: rest') : cs = ds ∧ rest = rest' := by
  have hword {word : List Char} (hword : stop ∉ word) (after : List Char) :
      (word ++ stop :: after).takeWhile (· ≠ stop) = word := by
    apply takeWhile_append_of_stop
    · intro c hc
      exact decide_eq_true fun heq => hword (heq ▸ hc)
    · simp
  obtain rfl : cs = ds := by rw [← hword hcs rest, h, hword hds rest']
  exact ⟨rfl, List.tail_eq_of_cons_eq (List.append_cancel_left h)⟩

theorem IsName.blank_notMem {cs : List Char} (h : IsName cs) : ' ' ∉ cs :=
  fun hblank => absurd (h.isNameRest hblank) (by decide)

/-! ## Places

Temporaries are written like names, with a `t` and digits. This is the reason for the condition on
variables: without it the text of a place would not tell which of the two it is. -/

theorem Place.isName_text_temp (n : Nat) : IsName (temp n).text.toList := by
  rw [text, String.toList_append, Nat.toList_repr]
  refine ⟨by decide, ?_⟩
  intro c hc
  have hdigit := Decimal.isDigit_toDigits n c hc
  simp [isNameRest, Char.isAlphanum, hdigit]

theorem Place.Over.isName_text {p : Place} (h : p.Over plainNames) : IsName p.text.toList := by
  cases p with
  | temp n => exact isName_text_temp n
  | var x => exact h.1

theorem Place.text_temp_injective {m n : Nat} (h : (temp m).text = (temp n).text) : m = n := by
  have hdigits : Nat.toDigits 10 m = Nat.toDigits 10 n := by
    rw [← Nat.toList_repr, ← Nat.toList_repr]
    rw [text, text, ← String.toList_inj, String.toList_append, String.toList_append] at h
    exact List.append_cancel_left h
  rw [← Decimal.digitsValue_toDigits m, hdigits, Decimal.digitsValue_toDigits]

/-- Among temporaries the number can be read back, among variables the text is the name, and across
the two they are kept apart by the condition. -/
theorem Place.Over.text_inj {p p' : Place} (h : p.Over plainNames) (h' : p'.Over plainNames)
    (htext : p.text = p'.text) : p = p' := by
  cases p with
  | temp n =>
    cases p' with
    | temp n' => exact congrArg temp (text_temp_injective htext)
    | var x => exact absurd htext.symm (h'.2 n)
  | var x =>
    cases p' with
    | temp n' => exact absurd htext (h.2 n')
    | var x' => exact congrArg var htext

/-! ## Operands

A place begins like a name and a number with a digit or a minus. One character decides between the
two kinds. -/

/-- A place begins as a name does. -/
theorem Place.Over.text_ne_cons {p : Place} (h : p.Over plainNames) {c : Char}
    (hc : isNameStart c = false) (rest : List Char) : p.text.toList ≠ c :: rest := by
  intro htext
  have hname := h.isName_text
  rw [htext] at hname
  exact absurd hname.1 (by simp [hc])

theorem Place.Over.text_ne {p : Place} (h : p.Over plainNames) {n : Number} (hn : n.isFinite) :
    p.text ≠ n.text := by
  intro htext
  obtain ⟨negative, c, rest, hcs, hc, -⟩ := Number.text_begins hn
  rw [← htext] at hcs
  cases negative with
  | true => exact h.text_ne_cons (by decide) _ hcs
  | false => exact h.text_ne_cons (isNameStart_of_isDigit hc) _ hcs

/-- Operands with the same text are the same. -/
theorem Operand.Over.text_inj {a b : Operand} (ha : a.Over plainNames) (hb : b.Over plainNames)
    (h : a.text = b.text) : a = b := by
  cases a with
  | place p =>
    cases b with
    | place p' => exact congrArg place (Place.Over.text_inj ha hb h)
    | const n => exact absurd h (Place.Over.text_ne ha hb)
  | const m =>
    cases b with
    | place p' => exact absurd h.symm (Place.Over.text_ne hb ha)
    | const n => exact congrArg const (Number.text_injective ha hb h)

theorem Operand.Over.blank_notMem {a : Operand} (ha : a.Over plainNames) : ' ' ∉ a.text.toList := by
  cases a with
  | place p => exact (Place.Over.isName_text ha).blank_notMem
  | const n =>
    obtain ⟨negative, c, rest, hcs, hc, hrest⟩ := Number.text_begins ha
    have hfirst : ' ' ≠ c := (ne_of_isDigit hc rfl).symm
    rw [text, hcs]
    cases negative <;> simp [hfirst, hrest]

/-- A number that cannot be negated begins with a minus. -/
theorem Number.exists_minus {n : Number} (h : (Operand.const n).negated? = none) :
    ∃ rest, n.text.toList = '-' :: rest := by
  cases n with
  | float x => cases h
  | int n =>
    have htext := Decimal.toList_wholeText n.toInt
    cases hn : n.toInt with
    | negSucc k =>
      rw [hn] at htext
      exact ⟨_, by rw [text, intText, hn, htext]⟩
    | ofNat k =>
      -- the opposite of an integer that is not negative is in range
      have hgreatest := n.toInt_lt
      have hpos : 0 ≤ Int.ofNat k := Int.natCast_nonneg k
      have hrange : leastInt ≤ -n.toInt ∧ -n.toInt ≤ greatestInt := by
        rw [show leastInt = -2 ^ 63 from rfl, show greatestInt = 2 ^ 63 - 1 from rfl]
        omega
      have hneg : Number.unary .neg (.int n) = .ok (.int (Int64.ofInt (-n.toInt))) :=
        if_pos hrange
      simp [Operand.negated?, Operand.const?, hneg, Except.toOption] at h

/-- A minus before an operand is not the minus that another operand begins with: that one has a
digit behind it. Two minus signs in a row are in front of a number that cannot be negated, and there
the first is a sign of its own. -/
theorem Operand.Over.text_ne_minus {a b : Operand} (ha : a.Over plainNames) (hb : b.Over plainNames)
    (hleft : b.negated? = none) : a.text.toList ≠ '-' :: b.text.toList := by
  intro h
  cases a with
  | place p => exact Place.Over.text_ne_cons ha (by decide) _ h
  | const m =>
    obtain ⟨negative, c, rest, hcs, hc, -⟩ := Number.text_begins ha
    rw [text, hcs] at h
    cases negative with
    | false => exact ne_of_isDigit hc rfl (List.cons.inj h).1
    | true =>
      have hrest : c :: rest = b.text.toList := (List.cons.inj h).2
      cases b with
      | place p => exact Place.Over.text_ne_cons hb (isNameStart_of_isDigit hc) _ hrest.symm
      | const n =>
        obtain ⟨rest', hcs'⟩ := Number.exists_minus hleft
        rw [text, hcs'] at hrest
        exact ne_of_isDigit hc rfl (List.cons.inj hrest).1

/-! ## Computations

The kind of a computation is seen from its text: with a blank it has two operands, with a minus that
is no part of a number it is a sign, and else it is a copy. -/

theorem BinOp.symbol_injective {op op' : BinOp} (h : op.symbol = op'.symbol) : op = op' := by
  revert h
  cases op <;> cases op' <;> decide

theorem BinOp.blank_notMem (op : BinOp) : ' ' ∉ op.symbol.toList := by
  cases op <;> decide

theorem Computation.toList_text_binary (op : BinOp) (a b : Operand) :
    (binary op a b).text.toList =
      a.text.toList ++ ' ' :: (op.symbol.toList ++ ' ' :: b.text.toList) := by
  simp [text]

theorem Computation.toList_text_neg (a : Operand) :
    (unary .neg a).text.toList = '-' :: a.text.toList := by
  rw [text, String.toList_append]
  rfl

/-- Only an operator between operands has a blank around it. -/
theorem Computation.Over.blank_notMem_unary {a : Operand} (ha : a.Over plainNames) :
    ' ' ∉ (unary .neg a).text.toList := by
  simp [toList_text_neg, ha.blank_notMem]

theorem Computation.blank_mem_binary (op : BinOp) (a b : Operand) :
    ' ' ∈ (binary op a b).text.toList := by
  simp [toList_text_binary]

/-- The nine cases are the pairs of kinds. On one kind the parts are cut out of the text, and across
two kinds the texts differ by the blank or the minus. -/
theorem Computation.Over.text_inj {c c' : Computation} (h : c.Over plainNames)
    (h' : c'.Over plainNames) (htext : c.text = c'.text) : c = c' := by
  have hlist := congrArg String.toList htext
  cases c with
  | copy a =>
    cases c' with
    | copy a' => exact congrArg copy (Operand.Over.text_inj h h' htext)
    | unary op' a' =>
      obtain ⟨rfl, hleft, ha'⟩ := h'
      rw [toList_text_neg] at hlist
      exact absurd hlist (Operand.Over.text_ne_minus h ha' hleft)
    | binary op' a' b' =>
      exact absurd (hlist ▸ blank_mem_binary op' a' b') (Operand.Over.blank_notMem h)
  | unary op a =>
    obtain ⟨rfl, hleft, ha⟩ := h
    cases c' with
    | copy a' =>
      rw [toList_text_neg] at hlist
      exact absurd hlist.symm (Operand.Over.text_ne_minus h' ha hleft)
    | unary op' a' =>
      obtain ⟨rfl, -, ha'⟩ := h'
      rw [toList_text_neg, toList_text_neg] at hlist
      exact congrArg (unary .neg)
        (Operand.Over.text_inj ha ha' (String.toList_inj.mp (List.tail_eq_of_cons_eq hlist)))
    | binary op' a' b' =>
      exact absurd (hlist ▸ blank_mem_binary op' a' b') (blank_notMem_unary ha)
  | binary op a b =>
    cases c' with
    | copy a' =>
      exact absurd (hlist ▸ blank_mem_binary op a b) (Operand.Over.blank_notMem h')
    | unary op' a' =>
      obtain ⟨rfl, -, ha'⟩ := h'
      exact absurd (hlist ▸ blank_mem_binary op a b) (blank_notMem_unary ha')
    | binary op' a' b' =>
      rw [toList_text_binary, toList_text_binary] at hlist
      -- the operands and the symbol have no blank in them, so the two blanks are where they are
      obtain ⟨hleft, hrest⟩ := cut_at h.1.blank_notMem h'.1.blank_notMem hlist
      obtain ⟨hop, hright⟩ := cut_at op.blank_notMem op'.blank_notMem hrest
      rw [BinOp.symbol_injective (String.toList_inj.mp hop),
        h.1.text_inj h'.1 (String.toList_inj.mp hleft),
        h.2.text_inj h'.2 (String.toList_inj.mp hright)]

/-! ## Code

An instruction is a place, a sign for the write and a computation. What it was made for is not in
its text, and so instructions are found but for that. -/

/-- What an instruction does: where it writes, and what. -/
def Instr.kind (instr : Instr) : Place × Computation := (instr.dest, instr.value)

theorem Instr.Over.kind_eq {instr instr' : Instr} (h : instr.Over plainNames)
    (h' : instr'.Over plainNames) (htext : instr.text = instr'.text) :
    instr.kind = instr'.kind := by
  have hlist := congrArg String.toList htext
  simp only [text, String.toList_append, List.append_assoc] at hlist
  obtain ⟨hdest, hrest⟩ :=
    cut_at h.dest.isName_text.blank_notMem h'.dest.isName_text.blank_notMem hlist
  have hsign : ['=', ' '] ++ instr.value.text.toList = ['=', ' '] ++ instr'.value.text.toList :=
    hrest
  rw [kind, kind, h.dest.text_inj h'.dest (String.toList_inj.mp hdest),
    h.value.text_inj h'.value (String.toList_inj.mp (List.append_cancel_left hsign))]

/-- Line by line. -/
theorem kinds_of_texts {code code' : List Instr} (h : ∀ instr ∈ code, instr.Over plainNames)
    (h' : ∀ instr ∈ code', instr.Over plainNames)
    (htexts : code.map Instr.text = code'.map Instr.text) :
    code.map Instr.kind = code'.map Instr.kind := by
  induction code generalizing code' with
  | nil =>
    rw [List.map_nil, eq_comm, List.map_eq_nil_iff] at htexts
    rw [htexts]
  | cons instr code ih =>
    cases code' with
    | nil => cases htexts
    | cons instr' code' =>
      rw [List.forall_mem_cons] at h h'
      rw [List.map_cons, List.map_cons, List.cons.injEq] at htexts
      rw [List.map_cons, List.map_cons, h.1.kind_eq h'.1 htexts.1, ih h.2 h'.2 htexts.2]

/-- No variable of the program is written like a temporary. -/
def Compiled.PlainlyNamed (compiled : Compiled) : Prop :=
  ∀ stmt ∈ compiled.stmts, ∀ x ∈ stmt.names, ∀ n, x ≠ (Place.temp n).text

/-- The text of code says which code it is. If no variable is written like a temporary, programs
whose code is written alike, line by line, have instructions that do the same, and so it is with
what folding leaves of them. -/
theorem kinds_of_printed {target target' text text' : String} {compiled compiled' : Compiled}
    (h : Compiled.ofText target text = .ok compiled)
    (h' : Compiled.ofText target' text' = .ok compiled')
    (hplain : compiled.PlainlyNamed) (hplain' : compiled'.PlainlyNamed) :
    (compiled.code.map Instr.text = compiled'.code.map Instr.text →
      compiled.code.map Instr.kind = compiled'.code.map Instr.kind) ∧
    (compiled.folded.code.map Instr.text = compiled'.folded.code.map Instr.text →
      compiled.folded.code.map Instr.kind = compiled'.folded.code.map Instr.kind) := by
  obtain ⟨-, hcode, hfolded, -⟩ := Compiled.over plainNames h
    fun stmt hstmt x hx hname => ⟨hname, hplain stmt hstmt x hx⟩
  obtain ⟨-, hcode', hfolded', -⟩ := Compiled.over plainNames h'
    fun stmt hstmt x hx hname => ⟨hname, hplain' stmt hstmt x hx⟩
  exact ⟨kinds_of_texts hcode hcode', kinds_of_texts hfolded hfolded'⟩

/-- Parentheses do not show in code, and a product that is understood shows as one that is
written. -/
theorem kinds_of_printed_factor : ∃ compiled compiled',
    Compiled.ofText "x" "3x + 5" = .ok compiled ∧
    Compiled.ofText "x" "(3 * x) + 5" = .ok compiled' ∧
    compiled.PlainlyNamed ∧ compiled'.PlainlyNamed ∧
    compiled.folded.code.map Instr.text = ["t1 = 3 * x", "t3 = t1 + 5", "x = t3"] ∧
    compiled.code.map Instr.kind = compiled'.code.map Instr.kind ∧
    compiled.folded.code.map Instr.kind = compiled'.folded.code.map Instr.kind := by
  -- evaluated once for each text, since a compilation that is known to succeed can be taken apart
  have hread (text : String) (h : (Compiled.ofText "x" text).toOption.map
      (fun compiled => (compiled.stmts.flatMap Stmt.names, compiled.code.map Instr.text,
        compiled.folded.code.map Instr.text)) =
      some (["x", "x"], ["t0 = 3", "t1 = t0 * x", "t2 = 5", "t3 = t1 + t2", "x = t3"],
        ["t1 = 3 * x", "t3 = t1 + 5", "x = t3"])) :
      ∃ compiled, Compiled.ofText "x" text = .ok compiled ∧ compiled.PlainlyNamed ∧
        compiled.code.map Instr.text =
          ["t0 = 3", "t1 = t0 * x", "t2 = 5", "t3 = t1 + t2", "x = t3"] ∧
        compiled.folded.code.map Instr.text = ["t1 = 3 * x", "t3 = t1 + 5", "x = t3"] := by
    obtain ⟨compiled, hok, heq⟩ := Option.map_eq_some_iff.mp h
    simp only [Prod.mk.injEq] at heq
    obtain ⟨hnames, hcode, hfolded⟩ := heq
    refine ⟨compiled, toOption_eq_some_iff.mp hok, ?_, hcode, hfolded⟩
    intro stmt hstmt x hx n heq
    have hmem := List.mem_flatMap.mpr ⟨stmt, hstmt, hx⟩
    obtain rfl : x = "x" := by simpa [hnames] using hmem
    rw [Place.text, ← String.toList_inj, String.toList_append] at heq
    exact absurd (List.cons.inj heq).1 (by decide)
  obtain ⟨compiled, hok, hplain, hcode, hfolded⟩ := hread "3x + 5" (by decide +kernel)
  obtain ⟨compiled', hok', hplain', hcode', hfolded'⟩ := hread "(3 * x) + 5" (by decide +kernel)
  obtain ⟨hkinds, hkinds'⟩ := kinds_of_printed hok hok' hplain hplain'
  exact ⟨compiled, compiled', hok, hok', hplain, hplain', hfolded, hkinds (hcode.trans hcode'.symm),
    hkinds' (hfolded.trans hfolded'.symm)⟩

end ThreeAddress
