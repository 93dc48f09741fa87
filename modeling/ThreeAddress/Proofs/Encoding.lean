import ThreeAddress.Proofs.Evaluation
import ThreeAddress.Proofs.Heights
import ThreeAddress.Syntax.Json

/-!
# Programs come back from JSON

What is written of a program is read as that program again, with every name, number and place
(`programOfJson?_programJson`). The form of a node is the name of the one field of its object, and
the parts of a form are found by their names, so no form is taken for another.

An expression is read with a bound on its levels, which is the depth of its JSON. Every level of the
tree is a level of the JSON as well, so the bound is not felt.
-/

set_option autoImplicit false

namespace ThreeAddress

/-! ## Parts by their names

An object has its fields by name and in an order. Reading asks for names only, and an object that
was written has each of its names once. -/

theorem mapM_eq_some_map {α β : Type} {f : α → Option β} {g : α → β} {xs : List α}
    (h : ∀ x ∈ xs, f x = some (g x)) : xs.mapM f = some (xs.map g) := by
  induction xs with
  | nil => rfl
  | cons x xs ih =>
    have hx := h x List.mem_cons_self
    have hxs := ih fun y hy => h y (List.mem_cons_of_mem x hy)
    rw [List.mapM_cons, hx, hxs]
    rfl

namespace Json

/-- With different names every field is found, wherever it stands. -/
theorem field?_of_mem {fields : List (String × Json)} (h : (fields.map Prod.fst).Nodup)
    {name : String} {value : Json} (hmem : (name, value) ∈ fields) :
    (obj fields).field? name = some value := by
  obtain ⟨before, after, rfl⟩ := List.append_of_mem hmem
  refine List.lookup_eq_some_iff.mpr ⟨before, after, rfl, ?_⟩
  intro other hother
  rw [List.map_append, List.map_cons] at h
  have hne := (List.nodup_append.mp h).2.2 other.1 (List.mem_map_of_mem hother) name
    List.mem_cons_self
  simpa using hne.symm

/-- The parts of an object whose fields have different names come back by these. They come in the
order in which they were asked for, which here is that of the object. -/
theorem parts?_obj {fields : List (String × Json)} (h : (fields.map Prod.fst).Nodup) :
    (obj fields).parts? (fields.map Prod.fst) = some (fields.map Prod.snd) := by
  rw [parts?, List.mapM_map]
  · exact mapM_eq_some_map fun field hmem => field?_of_mem h hmem
  · intro items hitems
    cases hitems

theorem onlyParts?_obj {fields : List (String × Json)} (h : (fields.map Prod.fst).Nodup) :
    (obj fields).onlyParts? (fields.map Prod.fst) = some (fields.map Prod.snd) := by
  rw [onlyParts?, if_pos (List.length_map _).symm, parts?_obj h]

/-- The form of a node, and what belongs to it. -/
theorem single?_tagged (name : String) (content : Json) :
    (tagged name content).single? = some (name, content) := rfl

theorem float?_ofFloat {x : Float} (h : x.isFinite) : (ofFloat x).float? = some x := by
  rw [ofFloat, if_pos h, float?]

theorem intWithin?_toInt (n : Int64) :
    (int n.toInt).intWithin? leastInt greatestInt = some n.toInt := by
  have hleast : leastInt ≤ n.toInt := n.le_toInt
  have hgreatest : n.toInt ≤ greatestInt := Int.le_of_lt_add_one n.toInt_lt
  rw [intWithin?, if_pos ⟨hleast, hgreatest⟩]

end Json

/-! ## Places, names and operators -/

@[simp] theorem Span.ofJson?_toJson (span : Span) : Span.ofJson? span.toJson = some span := by
  have hparts : span.toJson.onlyParts? ["start", "end"] =
      some [.int span.start, .int span.stop] := Json.onlyParts?_obj (by simp)
  simp [Span.ofJson?, hparts, Json.offset?]

@[simp] theorem Ident.ofJson?_toJson (ident : Ident) :
    Ident.ofJson? ident.toJson = some ident := by
  have hparts : ident.toJson.parts? ["name", "span"] =
      some [.str ident.name, ident.span.toJson] := Json.parts?_obj (by simp)
  simp [Ident.ofJson?, hparts, Json.str?]

/-- One of several choices is found by its label, which no choice before it has. -/
theorem Json.labelled?_labelled {α : Type} {choices : List α} {label : α → String} {a : α}
    (ha : choices.find? (label · = label a) = some a) (span : Span) :
    (labelled (label a) span).labelled? choices label = some (a, span) := by
  have hparts : (labelled (label a) span).parts? ["kind", "span"] =
      some [.str (label a), span.toJson] := parts?_obj (by simp)
  simp [labelled?, hparts, word?, ha]

@[simp] theorem UnOp.labelled?_labelled (op : UnOp) (span : Span) :
    (Json.labelled op.label span).labelled? all label = some (op, span) :=
  Json.labelled?_labelled (by cases op <;> decide) span

@[simp] theorem BinOp.labelled?_labelled (op : BinOp) (span : Span) :
    (Json.labelled op.label span).labelled? all label = some (op, span) :=
  Json.labelled?_labelled (by cases op <;> decide) span

@[simp] theorem UnsupportedKind.labelled?_labelled (kind : UnsupportedKind) (span : Span) :
    (Json.labelled kind.label span).labelled? all label = some (kind, span) :=
  Json.labelled?_labelled (by cases kind <;> decide) span

/-! ## Expressions

The bound on levels is taken off by one at each node, so the induction is on the expression for all
bounds that are large enough. That the depth of the JSON is one of them is shown before. -/

theorem Literal.ofJson?_toJson {value : Literal} {span : Span}
    (h : (Expr.literal value span).finiteLiterals) :
    Literal.ofJson? (value.toJson span) = some (.literal value span) := by
  have hparts : ∀ content : Json, (Json.obj [("value", content), ("span", span.toJson)]).parts?
      ["value", "span"] = some [content, span.toJson] := fun content => Json.parts?_obj (by simp)
  cases value with
  | int n =>
    rw [ofJson?, toJson, Json.single?_tagged]
    simp only [Option.bind_eq_bind, Option.bind_some, hparts, Json.intWithin?_toInt,
      Span.ofJson?_toJson, Int64.ofInt_toInt]
    rfl
  | float x =>
    have hx : (Json.ofFloat x).float? = some x := Json.float?_ofFloat h
    rw [ofJson?, toJson, Json.single?_tagged]
    simp only [Option.bind_eq_bind, Option.bind_some, hparts, hx, Span.ofJson?_toJson]
    rfl
  | name text =>
    rw [ofJson?, toJson, Json.single?_tagged]
    simp only [Option.bind_eq_bind, Option.bind_some, Ident.ofJson?_toJson]
    rfl

namespace Expr

/-- An expression has fewer levels than its JSON. Each node of the tree is an object in an object,
so there are even two levels of JSON for one of the tree. -/
theorem levelsBelow_lt_depth (e : Expr) : e.levelsBelow < e.toJson.depth := by
  induction e with
  | literal value span => exact Nat.succ_pos _
  | paren inner span ih =>
    simp only [toJson, Json.tagged, Json.depth, Json.fieldsDepth, Json.fieldDepth, levelsBelow]
    omega
  | unary op opSpan operand span ih =>
    simp only [toJson, Json.tagged, Json.depth, Json.fieldsDepth, Json.fieldDepth, levelsBelow]
    omega
  | binary op opSpan lhs rhs span ihl ihr =>
    simp only [toJson, Json.tagged, Json.depth, Json.fieldsDepth, Json.fieldDepth, levelsBelow]
    omega

/-- By induction on the expression, with any bound that is greater than its levels. The cases differ
in the names of the parts only. -/
theorem ofJsonWithin?_toJson {e : Expr} (h : e.finiteLiterals) {levels : Nat}
    (hlevels : e.levelsBelow < levels) : ofJsonWithin? levels e.toJson = some e := by
  induction e generalizing levels with
  | literal value span =>
    obtain ⟨levels, rfl⟩ := Nat.exists_eq_add_one.mpr (Nat.zero_lt_of_lt hlevels)
    rw [ofJsonWithin?, toJson, Json.single?_tagged]
    exact Literal.ofJson?_toJson h
  | paren inner span ih =>
    obtain ⟨levels, rfl⟩ := Nat.exists_eq_add_one.mpr (Nat.zero_lt_of_lt hlevels)
    -- the parts are found by their names, which are different
    have hparts : (Json.obj [("expr", inner.toJson), ("span", span.toJson)]).parts?
        ["expr", "span"] = some [inner.toJson, span.toJson] := Json.parts?_obj (by simp)
    have hinner := ih h (Nat.lt_of_succ_lt_succ hlevels)
    rw [ofJsonWithin?, toJson, Json.single?_tagged]
    simp only [Option.bind_eq_bind, Option.bind_some, hparts, hinner, Span.ofJson?_toJson]
    rfl
  | unary op opSpan operand span ih =>
    obtain ⟨levels, rfl⟩ := Nat.exists_eq_add_one.mpr (Nat.zero_lt_of_lt hlevels)
    have hparts : (Json.obj [("operand", operand.toJson), ("op", .labelled op.label opSpan),
        ("span", span.toJson)]).parts? ["operand", "op", "span"] =
        some [operand.toJson, .labelled op.label opSpan, span.toJson] := Json.parts?_obj (by simp)
    have hoperand := ih h (Nat.lt_of_succ_lt_succ hlevels)
    rw [ofJsonWithin?, toJson, Json.single?_tagged]
    simp only [Option.bind_eq_bind, Option.bind_some, hparts, hoperand, UnOp.labelled?_labelled,
      Span.ofJson?_toJson]
    rfl
  | binary op opSpan lhs rhs span ihl ihr =>
    obtain ⟨levels, rfl⟩ := Nat.exists_eq_add_one.mpr (Nat.zero_lt_of_lt hlevels)
    have hparts : (Json.obj [("lhs", lhs.toJson), ("op", .labelled op.label opSpan),
        ("rhs", rhs.toJson), ("span", span.toJson)]).parts? ["lhs", "op", "rhs", "span"] =
        some [lhs.toJson, .labelled op.label opSpan, rhs.toJson, span.toJson] :=
      Json.parts?_obj (by simp)
    obtain ⟨hfinitel, hfiniter⟩ := Bool.and_eq_true_iff.mp h
    -- the levels of both sides are below those of the whole
    have hmax := Nat.lt_of_succ_lt_succ hlevels
    have hl := ihl hfinitel (Nat.lt_of_le_of_lt (Nat.le_max_left ..) hmax)
    have hr := ihr hfiniter (Nat.lt_of_le_of_lt (Nat.le_max_right ..) hmax)
    rw [ofJsonWithin?, toJson, Json.single?_tagged]
    simp only [Option.bind_eq_bind, Option.bind_some, hparts, hl, hr, BinOp.labelled?_labelled,
      Span.ofJson?_toJson]
    rfl

theorem ofJson?_toJson {e : Expr} (h : e.finiteLiterals) : ofJson? e.toJson = some e :=
  ofJsonWithin?_toJson h e.levelsBelow_lt_depth

end Expr

/-! ## Programs

A program is a list of statements, and the JSON of it the list of theirs. -/

theorem Stmt.ofJson?_toJson {stmt : Stmt} (h : stmt.finiteLiterals) :
    ofJson? stmt.toJson = some stmt := by
  cases stmt with
  | assign target value span =>
    have hparts : (Json.obj [("target", target.toJson), ("value", value.toJson),
        ("span", span.toJson)]).parts? ["target", "value", "span"] =
        some [target.toJson, value.toJson, span.toJson] := Json.parts?_obj (by simp)
    rw [ofJson?, toJson, Json.single?_tagged]
    simp only [Option.bind_eq_bind, Option.bind_some, hparts, Expr.ofJson?_toJson h,
      Ident.ofJson?_toJson, Span.ofJson?_toJson]
    rfl
  | unsupported kind span =>
    rw [ofJson?, toJson, Json.single?_tagged]
    simp only [Option.bind_eq_bind, Option.bind_some, UnsupportedKind.labelled?_labelled]
    rfl

/-- JSON loses nothing of a program: it is read from the JSON that is written of it, whatever its
statements are, as long as its floats are finite. Infinities and `NaN` have no number in JSON, and
are written as `null`. -/
theorem programOfJson?_programJson {stmts : List Stmt}
    (h : ∀ stmt ∈ stmts, stmt.finiteLiterals) :
    programOfJson? (programJson stmts) = some stmts := by
  have hall : stmts.mapM (Stmt.ofJson? ∘ Stmt.toJson) = some (stmts.map id) :=
    mapM_eq_some_map fun stmt hmem => Stmt.ofJson?_toJson (h stmt hmem)
  show (stmts.map Stmt.toJson).mapM Stmt.ofJson? = some stmts
  rw [List.mapM_map, hall, List.map_id]

/-- Among others, `a = -(0.5) ** -9223372036854775808`, with a negative literal and with places that
are in no text. -/
theorem programOfJson?_programJson_mixed :
    let least : Expr := .literal (.int Int64.minValue) ⟨7, 2⟩
    let half : Expr := .paren (.literal (.float 0.5) ⟨0, 0⟩) ⟨5, 8⟩
    let value : Expr := .unary .neg ⟨4, 5⟩ (.binary .exp ⟨9, 11⟩ half least ⟨5, 31⟩) ⟨4, 31⟩
    let stmts : List Stmt := [.assign ⟨"a", ⟨0, 1⟩⟩ value ⟨0, 31⟩,
      .unsupported .augmentedAssign ⟨32, 38⟩, .assign ⟨"", ⟨3, 3⟩⟩ least ⟨9, 1⟩]
    (∀ stmt ∈ stmts, stmt.finiteLiterals) ∧ programOfJson? (programJson stmts) = some stmts := by
  intro least half value stmts
  have hfinite : ∀ stmt ∈ stmts, stmt.finiteLiterals := by
    decide +kernel
  exact ⟨hfinite, programOfJson?_programJson hfinite⟩

end ThreeAddress
