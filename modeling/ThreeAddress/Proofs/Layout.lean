import Mathlib.Logic.Relation
import ThreeAddress.Proofs.Transfer

/-!
# Layout

Blanks can be put in and taken out anywhere between the words of a program, and line ends anywhere
between two parentheses that belong together. The program stays the same, but for places.

A change of the layout is a number of steps, each of which puts in one token or takes one out
(`Inserts`). None of them changes what counts: between two parentheses that belong together there is
always one more open than before them.
-/

set_option autoImplicit false

namespace ThreeAddress

/-- Every parenthesis among the tokens has its partner among them. Other tokens may stand anywhere.
-/
inductive Balanced : List Token → Prop
  | nil : Balanced []
  | token {token : Token} {rest : List Token} (hopen : token.kind ≠ .openParen)
      (hclose : token.kind ≠ .closeParen) (h : Balanced rest) : Balanced (token :: rest)
  | parens {opening closing : Token} {inner rest : List Token} (hopen : opening.kind = .openParen)
      (hinner : Balanced inner) (hclose : closing.kind = .closeParen) (h : Balanced rest) :
      Balanced (opening :: (inner ++ closing :: rest))

/-- The second list is the first with one token put in: a blank, or a line end between an opening
parenthesis and the closing one that belongs to it. It is read in both directions: what can be put
in can be taken out. -/
inductive Inserts : List Token → List Token → Prop
  | blank {before after : List Token} {blank : Token} (h : blank.kind = .whitespace) :
      Inserts (before ++ after) (before ++ blank :: after)
  | line {before left right after : List Token} {opening closing line : Token}
      (hopen : opening.kind = .openParen) (hmatch : Balanced (left ++ right))
      (hclose : closing.kind = .closeParen) (h : line.kind = .newLine) :
      Inserts (before ++ opening :: (left ++ (right ++ closing :: after)))
        (before ++ opening :: (left ++ line :: (right ++ closing :: after)))

variable {before after left right tokens tokens₁ : List Token} {token : Token} {depth : Nat}

/-! ## Open parentheses

Whether a line end counts depends on how many parentheses are open before it. Between an opening
parenthesis and its partner this number is never zero, for whatever stands there closes no more than
it has opened. -/

/-- How many parentheses are open behind the tokens. -/
def depthBehind (depth : Nat) (tokens : List Token) : Nat := tokens.foldl Token.depthAfter depth

theorem depthBehind_cons (depth : Nat) (token : Token) (tokens : List Token) :
    depthBehind depth (token :: tokens) = depthBehind (token.depthAfter depth) tokens := rfl

theorem depthBehind_append (depth : Nat) (before after : List Token) :
    depthBehind depth (before ++ after) = depthBehind (depthBehind depth before) after :=
  List.foldl_append

theorem Token.depthAfter_of_isQuietAt (h : token.IsQuietAt depth) :
    token.depthAfter depth = depth := by
  rcases h with h | ⟨-, h⟩
  · exact depthAfter_of_ne (by simp [h]) (by simp [h]) depth
  · exact depthAfter_of_ne (by simp [h]) (by simp [h]) depth

theorem Balanced.depthBehind_eq (h : Balanced tokens) (depth : Nat) :
    depthBehind depth tokens = depth := by
  induction h generalizing depth with
  | nil => rfl
  | token hopen hclose _ ih => rw [depthBehind_cons, Token.depthAfter_of_ne hopen hclose, ih]
  | parens hopen _ hclose _ ihinner ihrest =>
    rw [depthBehind_cons, Token.depthAfter_of_openParen hopen, depthBehind_append, ihinner,
      depthBehind_cons, Token.depthAfter_of_closeParen hclose, Nat.add_sub_cancel, ihrest]

/-- Within balanced tokens no fewer parentheses are open than before them. By induction on how the
tokens are balanced, with the cut anywhere in them. -/
theorem Balanced.le_depthBehind (h : Balanced (left ++ right)) (depth : Nat) :
    depth ≤ depthBehind depth left := by
  -- the induction is on all of the tokens, and the cut is followed through it
  generalize hsplit : left ++ right = tokens at h
  induction h generalizing left right depth with
  | nil =>
    obtain ⟨rfl, -⟩ := List.append_eq_nil_iff.mp hsplit
    exact Nat.le_refl depth
  | token hopen hclose _ ih =>
    cases left with
    | nil => exact Nat.le_refl depth
    | cons _ left =>
      obtain ⟨rfl, hrest⟩ := List.cons.inj hsplit
      rw [depthBehind_cons, Token.depthAfter_of_ne hopen hclose]
      exact ih depth hrest
  | parens hopen hinner hclose _ ihinner ihrest =>
    cases left with
    | nil => exact Nat.le_refl depth
    | cons _ left =>
      obtain ⟨rfl, hrest⟩ := List.cons.inj hsplit
      rw [depthBehind_cons, Token.depthAfter_of_openParen hopen]
      rcases List.append_eq_append_iff.mp hrest with ⟨more, hmore, -⟩ | ⟨behind, rfl, hbehind⟩
      · -- the cut is before the closing parenthesis
        have hle := ihinner (depth + 1) hmore.symm
        omega
      · rw [depthBehind_append, hinner.depthBehind_eq]
        cases behind with
        | nil => exact Nat.le_succ depth
        | cons _ behind =>
          obtain ⟨rfl, hafter⟩ := List.cons.inj hbehind
          rw [depthBehind_cons, Token.depthAfter_of_closeParen hclose, Nat.add_sub_cancel]
          exact ihrest depth hafter.symm

/-! ## What counts

The tokens that count decide what is read. It is enough, then, that putting in a token changes
nothing about those. -/

/-- In two parts, the second is looked at with the parentheses that the first leaves open. -/
theorem significant_append (depth : Nat) (before after : List Token) :
    significant depth (before ++ after) =
      significant depth before ++ significant (depthBehind depth before) after := by
  induction before generalizing depth with
  | nil => rfl
  | cons token before ih =>
    rw [List.cons_append, significant, significant, depthBehind_cons]
    split
    next hquiet => rw [ih, Token.depthAfter_of_isQuietAt hquiet]
    next => rw [ih, List.cons_append]

theorem significant_map_bare (depth : Nat) (tokens : List Token) :
    significant depth (tokens.map Token.bare) = (significant depth tokens).map Token.bare := by
  induction tokens generalizing depth with
  | nil => rfl
  | cons token tokens ih =>
    have hquiet : token.bare.IsQuietAt depth ↔ token.IsQuietAt depth := Iff.rfl
    have hdepth : token.bare.depthAfter depth = token.depthAfter depth := rfl
    rw [List.map_cons, significant, significant]
    split
    next h => rw [if_pos (hquiet.mp h), ih]
    next h => rw [if_neg (mt hquiet.mpr h), List.map_cons, hdepth, ih]

theorem significant_insert (depth : Nat) (before after : List Token)
    (h : token.IsQuietAt (depthBehind depth before)) :
    significant depth (before ++ token :: after) = significant depth (before ++ after) := by
  rw [significant_append, significant_append, significant, if_pos h]

/-- What is put in does not count. -/
theorem Inserts.significant_eq (h : Inserts tokens tokens₁) :
    significant 0 tokens₁ = significant 0 tokens := by
  cases h with
  | blank hblank => exact significant_insert 0 _ _ (.inl hblank)
  | @line before left right after opening closing line hopen hmatch hclose hline =>
    have hdepth : 0 < depthBehind 0 (before ++ opening :: left) := by
      rw [depthBehind_append, depthBehind_cons, Token.depthAfter_of_openParen hopen]
      exact Nat.lt_of_lt_of_le (Nat.succ_pos _) (hmatch.le_depthBehind _)
    have hinsert := significant_insert 0 (before ++ opening :: left) (right ++ closing :: after)
      (.inr ⟨hdepth, hline⟩)
    simpa only [List.append_assoc, List.cons_append] using hinsert

/-- Two texts with the same words, but for blanks, and for line ends between parentheses that belong
together. -/
def SameLayout (source source₁ : String) : Prop :=
  Relation.EqvGen Inserts ((Token.scan source).map Token.bare) ((Token.scan source₁).map Token.bare)

/-- Steps in either direction, and any number of them. -/
theorem significant_eq_of_eqvGen (h : Relation.EqvGen Inserts tokens tokens₁) :
    significant 0 tokens₁ = significant 0 tokens := by
  induction h with
  | rel _ _ h => exact h.significant_eq
  | refl _ => rfl
  | symm _ _ _ ih => exact ih.symm
  | trans _ _ _ _ _ ih ih₁ => exact ih₁.trans ih

/-- Layout does not change meaning. A text that differs from a program in blanks, and in line ends
between parentheses that belong together, is a program as well, and the statements are the same, but
for their places. It is the tokens that count, with their kinds and spellings, from which the
statements are made. -/
theorem parseProgram_of_sameLayout {source source₁ : String} {stmts : List Stmt}
    (h : parseProgram source = .ok stmts) (hlayout : SameLayout source source₁) :
    ∃ stmts₁, parseProgram source₁ = .ok stmts₁ ∧ stmts₁.map Stmt.bare = stmts.map Stmt.bare := by
  have hcount := significant_eq_of_eqvGen hlayout
  rw [significant_map_bare, significant_map_bare] at hcount
  exact parseProgram_of_same_words h hcount

theorem parseProgram_of_sameLayout_reflowed : ∃ stmts stmts₁,
    parseProgram "x = (1)" = .ok stmts ∧ SameLayout "x = (1)" "x= (\n1)" ∧
      parseProgram "x= (\n1)" = .ok stmts₁ ∧ stmts₁.map Stmt.bare = stmts.map Stmt.bare := by
  have hread : (parseProgram "x = (1)").toOption.isSome := by
    decide +kernel
  have hlayout : SameLayout "x = (1)" "x= (\n1)" := by
    let name : Token := ⟨.name, "x", .point 0⟩
    let blank : Token := ⟨.whitespace, " ", .point 0⟩
    let assign : Token := ⟨.assign, "=", .point 0⟩
    let opening : Token := ⟨.openParen, "(", .point 0⟩
    let one : Token := ⟨.int, "1", .point 0⟩
    let closing : Token := ⟨.closeParen, ")", .point 0⟩
    let line : Token := ⟨.newLine, "\n", .point 0⟩
    have hscan : (Token.scan "x = (1)").map Token.bare =
        [name] ++ blank :: [assign, blank, opening, one, closing] := by
      decide +kernel
    have hscan₁ : (Token.scan "x= (\n1)").map Token.bare =
        [name, assign, blank] ++ opening :: ([] ++ line :: ([one] ++ [closing])) := by
      decide +kernel
    rw [SameLayout, hscan, hscan₁]
    -- a blank is taken out, and a line end is put in
    have hout : Inserts ([name] ++ [assign, blank, opening, one, closing])
        ([name] ++ blank :: [assign, blank, opening, one, closing]) := .blank rfl
    have hone : Balanced ([] ++ [one]) := .token (by decide) (by decide) .nil
    have hin : Inserts ([name, assign, blank] ++ opening :: ([] ++ ([one] ++ [closing])))
        ([name, assign, blank] ++ opening :: ([] ++ line :: ([one] ++ [closing]))) :=
      .line rfl hone rfl rfl
    exact .trans _ _ _ (.symm _ _ (.rel _ _ hout)) (.rel _ _ hin)
  obtain ⟨stmts, hparse⟩ := Option.isSome_iff_exists.mp hread
  rw [ParserState.toOption_eq_some_iff] at hparse
  obtain ⟨stmts₁, hparse₁, hbare⟩ := parseProgram_of_sameLayout hparse hlayout
  exact ⟨stmts, stmts₁, hparse, hlayout, hparse₁, hbare⟩

end ThreeAddress
