import ThreeAddress.Proofs.Transparency

/-!
# Outlines can be read back

The text of an outline says which outline it is (`Outline.text_inj`), and the outline says which
expression it was made of, but for parentheses and places. So programs that are shown alike have
right-hand sides that are compiled alike (`same_of_shown`).

A line of the text is a level and a label. The label alone does not say how many nodes are below
it: a `-` stands before one operand or between two. That is said by the levels, as all lines below
a node are deeper than it, and the next one that is not belongs to the rest. So the lines of an
outline can be told from what comes after them, as long as that begins no deeper
(`Outline.rows_append_inj`).
-/

set_option autoImplicit false

namespace ThreeAddress

open ThreeAddress.ParserState

/-! ## Lines and texts

The text is taken apart from outside to inside: lines at line ends, and a line into its level and
its label. Blanks and line ends are in no label, so neither cut can go wrong. -/

/-- A text without blanks and line ends. -/
structure IsLabel (text : String) : Prop where
  blank_notMem : ' ' ∉ text.toList
  newLine_notMem : '\n' ∉ text.toList

theorem UnOp.isLabel_symbol (op : UnOp) : IsLabel op.symbol := by
  constructor <;> cases op <;> decide

theorem BinOp.isLabel_symbol (op : BinOp) : IsLabel op.symbol := by
  constructor <;> cases op <;> decide

theorem UnOp.symbol_injective {op op' : UnOp} (h : op.symbol = op'.symbol) : op = op' := by
  revert h
  cases op <;> cases op' <;> decide

theorem toList_join_lines (ls : List String) :
    (String.join (ls.map (· ++ "\n"))).toList = ls.flatMap fun l => l.toList ++ ['\n'] := by
  rw [String.toList_join, List.flatMap_map]
  simp only [String.toList_append]
  rfl

/-- Lines that are ended by a line end and put in a row can be told apart. -/
theorem join_lines_inj {ls ls' : List String} (h : ∀ l ∈ ls, '\n' ∉ l.toList)
    (h' : ∀ l ∈ ls', '\n' ∉ l.toList)
    (heq : String.join (ls.map (· ++ "\n")) = String.join (ls'.map (· ++ "\n"))) : ls = ls' := by
  rw [← String.toList_inj, toList_join_lines, toList_join_lines] at heq
  induction ls generalizing ls' with
  | nil =>
    cases ls' with
    | nil => rfl
    | cons l' ls' => simp at heq
  | cons l ls ih =>
    cases ls' with
    | nil => simp at heq
    | cons l' ls' =>
      rw [List.forall_mem_cons] at h h'
      simp only [List.flatMap_cons, List.append_assoc, List.singleton_append] at heq
      obtain ⟨hline, hrest⟩ := cut_at h.1 h'.1 heq
      rw [String.toList_inj.mp hline, ih h.2 h'.2 hrest]

namespace Outline

/-- The lines of an outline, each as its level and its label. -/
def rows (level : Nat) : Outline → List (Nat × String)
  | leaf text => [(level, text)]
  | unary op operand => (level, op.symbol) :: operand.rows (level + 1)
  | binary op lhs rhs => (level, op.symbol) :: (lhs.rows (level + 1) ++ rhs.rows (level + 1))

/-- The line of a label, behind two blanks for each level. -/
def line (row : Nat × String) : String :=
  String.ofList (List.replicate (2 * row.1) ' ') ++ row.2

theorem lines_eq_rows (o : Outline) (level : Nat) : o.lines level = (o.rows level).map line := by
  induction o generalizing level with
  | leaf text => rfl
  | unary op operand ih => rw [lines, rows, List.map_cons, ih]; rfl
  | binary op lhs rhs ihl ihr => rw [lines, rows, List.map_cons, List.map_append, ihl, ihr]; rfl

/-- The blanks before a label are counted, and the label is what is left. -/
theorem line_inj {row row' : Nat × String} (h : IsLabel row.2) (h' : IsLabel row'.2)
    (heq : line row = line row') : row = row' := by
  -- taking blanks stops at the label, which has none
  have hblanks {label : String} (hlabel : IsLabel label) (n : Nat) :
      (List.replicate n ' ' ++ label.toList).takeWhile (· = ' ') = List.replicate n ' ' := by
    apply takeWhile_append_of_stop
    · intro c hc
      exact decide_eq_true (List.eq_of_mem_replicate hc)
    · intro c hc
      exact decide_eq_false fun heq => hlabel.blank_notMem (heq ▸ List.mem_of_mem_head? hc)
  obtain ⟨level, label⟩ := row
  obtain ⟨level', label'⟩ := row'
  simp only [line, ← String.toList_inj, String.toList_append, String.toList_ofList] at heq
  have hlevels : List.replicate (2 * level) ' ' = List.replicate (2 * level') ' ' := by
    rw [← hblanks h, heq, hblanks h']
  have hlength := congrArg List.length hlevels
  rw [List.length_replicate, List.length_replicate] at hlength
  rw [hlevels] at heq
  rw [String.toList_inj.mp (List.append_cancel_left heq)]
  congr
  omega

theorem rows_of_lines {rows rows' : List (Nat × String)} (h : ∀ row ∈ rows, IsLabel row.2)
    (h' : ∀ row ∈ rows', IsLabel row.2) (heq : rows.map line = rows'.map line) : rows = rows' := by
  induction rows generalizing rows' with
  | nil => exact (List.map_eq_nil_iff.mp heq.symm).symm
  | cons row rows ih =>
    cases rows' with
    | nil => cases heq
    | cons row' rows' =>
      rw [List.forall_mem_cons] at h h'
      obtain ⟨hrow, hrows⟩ := List.cons.inj heq
      rw [line_inj h.1 h'.1 hrow, ih h.2 h'.2 hrows]

theorem newLine_notMem_line {row : Nat × String} (h : IsLabel row.2) :
    '\n' ∉ (line row).toList := by
  rw [line, String.toList_append, String.toList_ofList]
  intro hmem
  rcases List.mem_append.mp hmem with hmem | hmem
  · exact absurd (List.eq_of_mem_replicate hmem) (by decide)
  · exact h.newLine_notMem hmem

/-! ## From lines to trees

A row is a level and a label. The rows of a tree at a level begin with one at that level, and all
others are deeper; this is what ends it when another tree follows. -/

/-- What can stand at a leaf: a label that no operator has, as there is a letter or a digit
in it. -/
structure IsLeaf (text : String) : Prop extends IsLabel text where
  has_word : text.toList.any isNameRest

/-- Signs are made of characters that no word has. -/
theorem IsLeaf.ne_unary {text : String} (h : IsLeaf text) (op : UnOp) : text ≠ op.symbol := by
  rintro rfl
  have hsigns : op.symbol.toList.any isNameRest = false := by cases op <;> decide
  exact Bool.noConfusion (hsigns.symm.trans h.has_word)

theorem IsLeaf.ne_binary {text : String} (h : IsLeaf text) (op : BinOp) : text ≠ op.symbol := by
  rintro rfl
  have hsigns : op.symbol.toList.any isNameRest = false := by cases op <;> decide
  exact Bool.noConfusion (hsigns.symm.trans h.has_word)

/-- All leaves have a text of their own. -/
def Legible : Outline → Prop
  | leaf text => IsLeaf text
  | unary _ operand => operand.Legible
  | binary _ lhs rhs => lhs.Legible ∧ rhs.Legible

theorem Legible.isLabel {o : Outline} (h : o.Legible) (level : Nat) :
    ∀ row ∈ o.rows level, IsLabel row.2 := by
  induction o generalizing level with
  | leaf text => exact List.forall_mem_singleton.mpr (IsLeaf.toIsLabel h)
  | unary op operand ih => exact List.forall_mem_cons.mpr ⟨op.isLabel_symbol, ih h _⟩
  | binary op lhs rhs ihl ihr =>
    exact List.forall_mem_cons.mpr
      ⟨op.isLabel_symbol, List.forall_mem_append.mpr ⟨ihl h.1 _, ihr h.2 _⟩⟩

/-- The rows begin at this level or above it, or there are none. -/
def Returns (level : Nat) (rows : List (Nat × String)) : Prop :=
  ∀ row ∈ rows.head?, row.1 ≤ level

theorem Returns.deeper {level : Nat} {rows : List (Nat × String)} (h : Returns level rows) :
    Returns (level + 1) rows :=
  fun row hrow => Nat.le_succ_of_le (h row hrow)

/-- The first row of an outline is its label at its level. -/
theorem head?_rows_append (o : Outline) (level : Nat) (rest : List (Nat × String)) :
    (o.rows level ++ rest).head? = some (level, o.label) := by
  cases o <;> rfl

theorem returns_rows (o : Outline) (level : Nat) (rest : List (Nat × String)) :
    Returns level (o.rows level ++ rest) := by
  intro row hrow
  rw [head?_rows_append] at hrow
  cases hrow
  exact Nat.le_refl level

/-- What begins with an outline one level deeper does not return to the level. -/
theorem not_returns_rows (o : Outline) (level : Nat) (rest : List (Nat × String)) :
    ¬Returns level (o.rows (level + 1) ++ rest) := by
  intro h
  have hle := h (level + 1, o.label) (head?_rows_append o _ rest)
  exact absurd hle (Nat.not_succ_le_self level)

theorem label_of_rows_append {o o' : Outline} {level : Nat} {rest rest' : List (Nat × String)}
    (h : o.rows level ++ rest = o'.rows level ++ rest') : o.label = o'.label := by
  have hhead := congrArg List.head? h
  rw [head?_rows_append, head?_rows_append] at hhead
  exact congrArg Prod.snd (Option.some.inj hhead)

/-- The rows of an outline can be told from what comes after it, if that begins no deeper. By
induction on the one outline, with the other at every point of the same kind: the label decides
between leaves and operators, and the levels decide between one operand and two. -/
theorem rows_append_inj {o o' : Outline} (ho : o.Legible) (ho' : o'.Legible) {level : Nat}
    {rest rest' : List (Nat × String)} (hrest : Returns level rest) (hrest' : Returns level rest')
    (h : o.rows level ++ rest = o'.rows level ++ rest') : o = o' ∧ rest = rest' := by
  induction o generalizing o' level rest rest' with
  | leaf text =>
    have hlabel : text = o'.label := label_of_rows_append h
    cases o' with
    | leaf text' => exact ⟨congrArg leaf hlabel, (List.cons.inj h).2⟩
    | unary op' operand' => exact absurd hlabel (IsLeaf.ne_unary ho op')
    | binary op' lhs' rhs' => exact absurd hlabel (IsLeaf.ne_binary ho op')
  | unary op operand ih =>
    have hlabel : op.symbol = o'.label := label_of_rows_append h
    cases o' with
    | leaf text' => exact absurd hlabel.symm (IsLeaf.ne_unary ho' op)
    | unary op' operand' =>
      simp only [rows, List.cons_append, List.cons.injEq] at h
      have hoperand : operand'.Legible := ho'
      obtain ⟨rfl, rfl⟩ := ih ho hoperand hrest.deeper hrest'.deeper h.2
      exact ⟨congrArg (unary · operand) (UnOp.symbol_injective hlabel), rfl⟩
    | binary op' lhs' rhs' =>
      simp only [rows, List.cons_append, List.append_assoc, List.cons.injEq] at h
      -- the second operand would come after the end of the first, and yet below it
      obtain ⟨-, rfl⟩ := ih ho ho'.1 hrest.deeper (returns_rows rhs' _ rest') h.2
      exact absurd hrest (not_returns_rows rhs' level rest')
  | binary op lhs rhs ihl ihr =>
    have hlabel : op.symbol = o'.label := label_of_rows_append h
    cases o' with
    | leaf text' => exact absurd hlabel.symm (IsLeaf.ne_binary ho' op)
    | unary op' operand' =>
      simp only [rows, List.cons_append, List.append_assoc, List.cons.injEq] at h
      have hoperand : operand'.Legible := ho'
      obtain ⟨-, rfl⟩ := ihl ho.1 hoperand (returns_rows rhs _ rest) hrest'.deeper h.2
      exact absurd hrest' (not_returns_rows rhs level rest)
    | binary op' lhs' rhs' =>
      simp only [rows, List.cons_append, List.append_assoc, List.cons.injEq] at h
      obtain ⟨rfl, hright⟩ :=
        ihl ho.1 ho'.1 (returns_rows rhs _ rest) (returns_rows rhs' _ rest') h.2
      obtain ⟨rfl, rfl⟩ := ihr ho.2 ho'.2 hrest.deeper hrest'.deeper hright
      exact ⟨congrArg (binary · lhs rhs) (BinOp.symbol_injective hlabel), rfl⟩

theorem lines_inj {o o' : Outline} (ho : o.Legible) (ho' : o'.Legible) {level : Nat}
    (h : o.lines level = o'.lines level) : o = o' := by
  rw [lines_eq_rows, lines_eq_rows] at h
  have hrows := rows_of_lines (ho.isLabel level) (ho'.isLabel level) h
  have hend : Returns level [] := fun row hrow => by cases hrow
  exact (rows_append_inj ho ho' hend hend (congrArg (· ++ []) hrows)).1

/-- The text of an outline says which outline it is. The levels are there to begin with as numbers
of blanks, so nothing but the text is used. -/
theorem text_inj {o o' : Outline} (ho : o.Legible) (ho' : o'.Legible) (h : o.text = o'.text) :
    o = o' := by
  have hlines {o : Outline} (ho : o.Legible) : ∀ l ∈ o.lines 0, '\n' ∉ l.toList := by
    rw [lines_eq_rows, List.forall_mem_map]
    exact fun row hrow => newLine_notMem_line (ho.isLabel 0 row hrow)
  exact lines_inj ho ho' (join_lines_inj (hlines ho) (hlines ho') h)

end Outline

/-! ## From trees to expressions

An outline has the texts of literals at its leaves. Texts of different literals are different, as
numbers are read back and a name is spelled like no number; so the literals can be found again, and
with them the whole expression but for parentheses and places. -/

/-- A character that numbers are written with. Of a float that is not finite the text has letters,
which is why finiteness is asked for. -/
def IsNumeral (c : Char) : Prop := c.isDigit ∨ c = '.' ∨ c = 'e' ∨ c = '-' ∨ c = '+'

instance : DecidablePred IsNumeral := fun _ => inferInstanceAs (Decidable (_ ∨ _))

theorem IsNumeral.ofPower {cs : List Char} (h : ∀ c ∈ cs, c.isDigit ∨ c = '-' ∨ c = '+') :
    ∀ c ∈ cs, IsNumeral c :=
  fun c hc => (h c hc).imp_right fun hsign => .inr (.inr hsign)

theorem Decimal.TextOf.isNumeral {cs : List Char} {v : ℚ} (h : TextOf cs v) :
    ∀ c ∈ cs, IsNumeral c := by
  have hpoint : IsNumeral '.' := .inr (.inl rfl)
  have he : IsNumeral 'e' := .inr (.inr (.inl rfl))
  have hdigits {ds : List Char} (hds : ∀ c ∈ ds, c.isDigit) : ∀ c ∈ ds, IsNumeral c :=
    fun c hc => .inl (hds c hc)
  cases h with
  | point hwhole hfraction hne =>
    simp only [List.forall_mem_append, List.forall_mem_cons]
    exact ⟨hdigits hwhole, hpoint, hdigits hfraction⟩
  | power hwhole hpower hne =>
    simp only [List.forall_mem_append, List.forall_mem_cons]
    exact ⟨hdigits hwhole, he, .ofPower hpower⟩
  | pointPower hwhole hfraction hpower hne =>
    simp only [List.forall_mem_append, List.forall_mem_cons]
    exact ⟨hdigits hwhole, hpoint, hdigits hfraction, he, .ofPower hpower⟩

theorem Number.isNumeral {n : Number} (hn : n.isFinite) : ∀ c ∈ n.text.toList, IsNumeral c := by
  cases n with
  | int n => exact .ofPower (Decimal.isPower_wholeText n.toInt)
  | float x =>
    obtain ⟨negative, m, q, cs, v, -, htext, htextOf, -⟩ := layout.floatText_textOf hn
    rw [text, floatText, htext, List.forall_mem_append]
    refine ⟨?_, htextOf.isNumeral⟩
    cases negative with
    | true => exact List.forall_mem_singleton.mpr (.inr (.inr (.inr (.inl rfl))))
    | false => exact List.forall_mem_nil _

theorem Number.isLeaf_text {n : Number} (hn : n.isFinite) : Outline.IsLeaf n.text where
  blank_notMem hmem := absurd (isNumeral hn _ hmem) (by decide)
  newLine_notMem hmem := absurd (isNumeral hn _ hmem) (by decide)
  has_word := by
    obtain ⟨negative, c, rest, hcs, hc, -⟩ := text_begins hn
    have hmem : c ∈ n.text.toList := by simp [hcs]
    exact List.any_eq_true.mpr ⟨c, hmem, by simp [isNameRest, Char.isAlphanum, hc]⟩

theorem IsName.isLeaf {x : String} (h : IsName x.toList) : Outline.IsLeaf x where
  blank_notMem := h.blank_notMem
  newLine_notMem hmem := absurd (h.isNameRest hmem) (by decide)
  has_word := by
    cases hcs : x.toList with
    | nil => exact (hcs ▸ h : IsName []).elim
    | cons c rest =>
      exact List.any_eq_true.mpr ⟨c, List.mem_cons_self, h.isNameRest (by simp [hcs])⟩

/-- The texts that are spelled as names. -/
def spelledNames : Set String := {x | IsName x.toList}

theorem Literal.Over.isLeaf_text {value : Literal} (h : value.Over spelledNames) :
    Outline.IsLeaf value.text := by
  cases value with
  | int n => exact Number.isLeaf_text (n := .int n) rfl
  | float x => exact Number.isLeaf_text (n := .float x) h
  | name x => exact IsName.isLeaf h

theorem Outline.legible_ofExpr {e : Expr} (h : e.Over spelledNames) : (ofExpr e).Legible := by
  induction e with
  | literal value span => exact Literal.Over.isLeaf_text h
  | paren inner span ih => exact ih h
  | unary op opSpan operand span ih => exact ih h
  | binary op opSpan lhs rhs span ihl ihr => exact ⟨ihl h.1, ihr h.2⟩

/-- A name is not written like a number. -/
theorem IsName.ne_text {x : String} (h : IsName x.toList) {n : Number} (hn : n.isFinite) :
    x ≠ n.text := by
  rintro rfl
  obtain ⟨negative, c, rest, hcs, hc, -⟩ := Number.text_begins hn
  rw [hcs] at h
  cases negative with
  | true => exact absurd h.1 (by decide)
  | false => exact absurd h.1 (by simp [isNameStart_of_isDigit hc])

/-- Literals with the same text are the same. The nine cases are the pairs of kinds: a number of
either kind is read back from its text, and texts of different kinds differ. -/
theorem Literal.Over.text_inj {value value' : Literal} (h : value.Over spelledNames)
    (h' : value'.Over spelledNames) (htext : value.text = value'.text) : value = value' := by
  cases value with
  | int n =>
    cases value' with
    | int n' => exact congrArg int (Number.intText_injective htext)
    | float y => exact absurd htext (Number.intText_ne_floatText n h')
    | name y => exact absurd htext.symm (IsName.ne_text h' (n := .int n) rfl)
  | float x =>
    cases value' with
    | int n' => exact absurd htext.symm (Number.intText_ne_floatText n' h)
    | float y => exact congrArg float (Number.layout.floatText_injective h h' htext)
    | name y => exact absurd htext.symm (IsName.ne_text h' (n := .float x) h)
  | name x =>
    cases value' with
    | int n' => exact absurd htext (IsName.ne_text h (n := .int n') rfl)
    | float y => exact absurd htext (IsName.ne_text h (n := .float y) h')
    | name y => exact congrArg name htext

namespace Expr

/-- There are no parentheses in the expression. -/
def Parenless : Expr → Prop
  | literal _ _ => True
  | paren _ _ => False
  | unary _ _ operand _ => operand.Parenless
  | binary _ _ lhs rhs _ => lhs.Parenless ∧ rhs.Parenless

/-- Unwrapping takes all parentheses away, at every depth. -/
theorem parenless_unwrapped (e : Expr) : e.unwrapped.bare.Parenless := by
  induction e with
  | literal value span => trivial
  | paren inner span ih => exact ih
  | unary op opSpan operand span ih => exact ih
  | binary op opSpan lhs rhs span ihl ihr => exact ⟨ihl, ihr⟩

theorem Over.unwrapped {names : Set String} {e : Expr} (h : e.Over names) :
    e.unwrapped.bare.Over names := by
  induction e with
  | literal value span => exact h
  | paren inner span ih => exact ih h
  | unary op opSpan operand span ih => exact ih h
  | binary op opSpan lhs rhs span ihl ihr => exact ⟨ihl h.1, ihr h.2⟩

/-- An expression without parentheses can be read off its outline, but for its places. By induction
on one of the expressions. Parentheses are excluded in both, as an outline does not show them and
they would be a case that nothing is known of. -/
theorem bare_of_ofExpr {e e' : Expr} (hpar : e.Parenless) (hpar' : e'.Parenless)
    (h : e.Over spelledNames) (h' : e'.Over spelledNames)
    (htree : Outline.ofExpr e = Outline.ofExpr e') : e.bare = e'.bare := by
  induction e generalizing e' with
  | paren inner span ih => exact hpar.elim
  | literal value span =>
    cases e' with
    | paren inner' span' => exact hpar'.elim
    | literal value' span' =>
      obtain rfl := Literal.Over.text_inj h h' (Outline.leaf.inj htree)
      rfl
    | unary op' opSpan' operand' span' => cases htree
    | binary op' opSpan' lhs' rhs' span' => cases htree
  | unary op opSpan operand span ih =>
    cases e' with
    | paren inner' span' => exact hpar'.elim
    | literal value' span' => cases htree
    | unary op' opSpan' operand' span' =>
      obtain ⟨rfl, hoperand⟩ := Outline.unary.inj htree
      have hover : operand'.Over spelledNames := h'
      have hparenless : operand'.Parenless := hpar'
      rw [bare, bare, ih hpar hparenless h hover hoperand]
    | binary op' opSpan' lhs' rhs' span' => cases htree
  | binary op opSpan lhs rhs span ihl ihr =>
    cases e' with
    | paren inner' span' => exact hpar'.elim
    | literal value' span' => cases htree
    | unary op' opSpan' operand' span' => cases htree
    | binary op' opSpan' lhs' rhs' span' =>
      obtain ⟨rfl, hlhs, hrhs⟩ := Outline.binary.inj htree
      rw [bare, bare, ihl hpar.1 hpar'.1 h.1 h'.1 hlhs, ihr hpar.2 hpar'.2 h.2 h'.2 hrhs]

theorem bare_bare (e : Expr) : e.bare.bare = e.bare := by
  induction e with
  | literal value span => rfl
  | paren inner span ih => rw [bare, bare, ih]
  | unary op opSpan operand span ih => rw [bare, bare, ih]
  | binary op opSpan lhs rhs span ihl ihr => rw [bare, bare, ihl, ihr]

theorem unwrapped_of_ofExpr {e e' : Expr} (h : e.Over spelledNames) (h' : e'.Over spelledNames)
    (htree : Outline.ofExpr e = Outline.ofExpr e') : e.unwrapped.bare = e'.unwrapped.bare := by
  rw [← Outline.ofExpr_unwrapped, ← Outline.ofExpr_unwrapped e'] at htree
  have hbare := bare_of_ofExpr e.parenless_unwrapped e'.parenless_unwrapped h.unwrapped
    h'.unwrapped htree
  rwa [bare_bare, bare_bare] at hbare

end Expr

/-! ## Programs

The outline of a program is that of its first statement. Both programs are read from texts, and so
the names in them are spelled as names and the floats are finite. -/

/-- What is shown of a program determines the code of its first statement. If two programs begin
with assignments to the same variable and their outlines are printed alike, the outlines are the
same, the right-hand sides are the same but for parentheses and places, and they are linearized
alike. -/
theorem same_of_shown {source source' : String} {target target' : Ident} {value value' : Expr}
    {span span' : Span} {rest rest' : List Stmt}
    (h : parseProgram source = .ok (.assign target value span :: rest))
    (h' : parseProgram source' = .ok (.assign target' value' span' :: rest'))
    (htarget : target.name = target'.name)
    (hshown : (Outline.ofProgram (.assign target value span :: rest)).text =
      (Outline.ofProgram (.assign target' value' span' :: rest')).text) :
    Outline.ofProgram (.assign target value span :: rest) =
        Outline.ofProgram (.assign target' value' span' :: rest') ∧
      value.unwrapped.bare = value'.unwrapped.bare ∧
      (linearize [.assign target value span]).map Instr.kind =
        (linearize [.assign target' value' span']).map Instr.kind := by
  have hover : value.Over spelledNames :=
    (over_of_parseProgram h (fun _ _ _ _ hname => hname) _ List.mem_cons_self).2
  have hover' : value'.Over spelledNames :=
    (over_of_parseProgram h' (fun _ _ _ _ hname => hname) _ List.mem_cons_self).2
  have htree : Outline.ofExpr value = Outline.ofExpr value' :=
    Outline.text_inj (Outline.legible_ofExpr hover) (Outline.legible_ofExpr hover') hshown
  have hvalue := Expr.unwrapped_of_ofExpr hover hover' htree
  refine ⟨htree, hvalue, linearizeFrom_of_unwrapped ?_ 0⟩
  simp only [List.map_cons, List.map_nil, Stmt.unwrapped, Stmt.bare, hvalue, htarget]

/-- The sign and the difference are both shown by a `-`. What is below them tells them apart, and
the parentheses around `a` do not show. -/
theorem same_of_shown_difference : ∃ target value span rest target' value' span' rest',
    parseProgram "x = -(a - 2.50); y = 1" = .ok (.assign target value span :: rest) ∧
    parseProgram "x=-(((a) - 2.5))" = .ok (.assign target' value' span' :: rest') ∧
    target.name = target'.name ∧
    (Outline.ofProgram (.assign target value span :: rest)).text = "-\n  -\n    a\n    2.5\n" ∧
    value.unwrapped.bare = value'.unwrapped.bare ∧
    (linearize [.assign target value span]).map Instr.kind =
      (linearize [.assign target' value' span']).map Instr.kind := by
  -- the names and the outline are evaluated together, once for each text
  have hread (source : String) (h : (parseProgram source).toOption.map
      (fun stmts => (stmts.head?.map Stmt.names, (Outline.ofProgram stmts).text)) =
      some (some ["x", "a"], "-\n  -\n    a\n    2.5\n")) :
      ∃ target value span rest, parseProgram source = .ok (.assign target value span :: rest) ∧
        target.name = "x" ∧ (Outline.ofProgram (.assign target value span :: rest)).text =
          "-\n  -\n    a\n    2.5\n" := by
    obtain ⟨stmts, hparse, heq⟩ := Option.map_eq_some_iff.mp h
    obtain ⟨hnames, htext⟩ := Prod.mk.inj heq
    rcases stmts with _ | ⟨⟨target, value, span⟩ | _, rest⟩
    · cases hnames
    · have hname : target.name = "x" := (List.cons.inj (Option.some.inj hnames)).1
      exact ⟨target, value, span, rest, toOption_eq_some_iff.mp hparse, hname, htext⟩
    · cases hnames
  obtain ⟨target, value, span, rest, hparse, hname, htext⟩ :=
    hread "x = -(a - 2.50); y = 1" (by decide +kernel)
  obtain ⟨target', value', span', rest', hparse', hname', htext'⟩ :=
    hread "x=-(((a) - 2.5))" (by decide +kernel)
  have htarget := hname.trans hname'.symm
  obtain ⟨-, hvalue, hkinds⟩ := same_of_shown hparse hparse' htarget (htext.trans htext'.symm)
  exact ⟨target, value, span, rest, target', value', span', rest', hparse, hparse', htarget, htext,
    hvalue, hkinds⟩

end ThreeAddress
