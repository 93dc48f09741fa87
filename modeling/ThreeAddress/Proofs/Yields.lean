import ThreeAddress.Grammar
import ThreeAddress.Proofs.Steps

/-!
# What an expression is read from

The tree of an expression, taken apart again: the tokens that it stands for, in order (`Yields`),
and where parentheses may be missing from it (`Canonical`). Neither asks how expressions are read.
A tree that is canonical comes back from its tokens, as precedence and the sides to which operators
group put the parentheses where they are missing.

A parser gets at these tokens one by one (`Consumes`). What it passes over on the way depends on how
many parentheses are open, and so these are counted.
-/

set_option autoImplicit false

namespace ThreeAddress

/-! ## The tokens of operators and literals

Reading a token as an operator or a literal is turned round here: which tokens can be read as a
given one. For operators that is a kind; for literals it is the kind and the text. -/

def UnOp.kind : UnOp → TokenKind
  | neg => .sub
  | pos => .add

def BinOp.kind : BinOp → TokenKind
  | exp => .exp
  | mul => .mul
  | div => .div
  | mod => .mod
  | add => .add
  | sub => .sub
  | shiftRight => .bitRight
  | shiftLeft => .bitLeft
  | bitAnd => .bitAnd
  | bitXor => .bitXor
  | bitOr => .bitOr

/-- The token is one that is written for the literal. An integer may have zeros in front, and a
float has many spellings. -/
def Literal.IsToken (token : Token) : Literal → Prop
  | int n => token.kind = .int ∧ n.toInt = Token.digitsValue token.lexeme.toList
  | float x => token.kind = .float ∧ Token.floatValue token.lexeme.toList = x ∧ x.isFinite
  | name text => token.kind = .name ∧ token.lexeme = text

theorem UnOp.kind_ne_openParen (sign : UnOp) : sign.kind ≠ .openParen := by
  cases sign <;> decide

theorem Literal.IsToken.kind_ne_openParen {value : Literal} {token : Token}
    (h : value.IsToken token) : token.kind ≠ .openParen := by
  cases value <;> simp [h.1]

theorem Literal.IsToken.kind_ne_sign {value : Literal} {token : Token} (h : value.IsToken token)
    (sign : UnOp) : token.kind ≠ sign.kind := by
  cases value <;> cases sign <;> simp [h.1, UnOp.kind]

namespace Token

theorem unaryOp_ok_iff {token : Token} {op : UnOp} {span : Span} :
    token.unaryOp = .ok (op, span) ↔ token.kind = op.kind ∧ span = token.span := by
  unfold unaryOp
  cases hkind : token.kind <;> cases op <;> simp [UnOp.kind, eq_comm]

theorem binaryOp_ok_iff {token : Token} {op : BinOp} {span : Span} :
    token.binaryOp = .ok (op, span) ↔ token.kind = op.kind ∧ span = token.span := by
  unfold binaryOp
  cases hkind : token.kind <;> cases op <;> simp [BinOp.kind, eq_comm]

/-- An integer is read if it is in range, and no sign can be part of it. -/
theorem literal_int_iff {token : Token} (hkind : token.kind = .int) {value : Literal} :
    token.literal = .ok value ↔ value.IsToken token := by
  have hgreatest : greatestInt = 2 ^ 63 - 1 := by decide
  simp only [literal, hkind, hgreatest]
  generalize hn : digitsValue token.lexeme.toList = n
  -- up to the greatest integer nothing wraps around
  have hofNat : (n : Int) ≤ 2 ^ 63 - 1 → (Int64.ofNat n).toInt = n := by
    intro hle
    exact Int64.toInt_ofNat_of_lt (by omega)
  constructor
  · intro h
    split at h
    next hle =>
      obtain rfl : Literal.int (Int64.ofNat n) = value := by simpa using h
      exact ⟨hkind, by rw [hn, hofNat hle]⟩
    next => cases h
  · intro h
    cases value with
    | int m =>
      have hm : m.toInt = n := by rw [h.2, hn]
      have hle : (n : Int) ≤ 2 ^ 63 - 1 := by have := m.toInt_lt; omega
      have hofNat_eq : Int64.ofNat n = m := by rw [← Int64.toInt_inj, hofNat hle, hm]
      rw [if_pos hle, hofNat_eq]
    | float x => simp [Literal.IsToken, hkind] at h
    | name text => simp [Literal.IsToken, hkind] at h

/-- A float is read if it is finite. -/
theorem literal_float_iff {token : Token} (hkind : token.kind = .float) {value : Literal} :
    token.literal = .ok value ↔ value.IsToken token := by
  simp only [literal, hkind]
  cases value with
  | int m => split <;> simp [Literal.IsToken, hkind]
  | float x =>
    simp only [Literal.IsToken, hkind, true_and]
    split
    next hfinite =>
      constructor
      · intro h
        obtain rfl : _ = x := by simpa using h
        exact ⟨rfl, hfinite⟩
      · rintro ⟨rfl, -⟩
        rfl
    next hinfinite =>
      constructor
      · intro h
        cases h
      · rintro ⟨rfl, hfinite⟩
        exact (hinfinite hfinite).elim
  | name text => split <;> simp [Literal.IsToken, hkind]

theorem literal_ok_iff {token : Token} {value : Literal} :
    token.literal = .ok value ↔ value.IsToken token := by
  cases hkind : token.kind with
  | int => exact literal_int_iff hkind
  | float => exact literal_float_iff hkind
  | _ => cases value <;> simp [literal, Literal.IsToken, hkind]

theorem ident_ok_iff {token : Token} {target : Ident} :
    token.ident = .ok target ↔ token.kind = .name ∧ target = ⟨token.lexeme, token.span⟩ := by
  unfold ident
  split
  next h => simp [h, eq_comm]
  next h => simp [h]

theorem ofKind_ok_iff {kind : TokenKind} {token token' : Token} :
    token.ofKind kind = .ok token' ↔ token.kind = kind ∧ token = token' := by
  unfold ofKind
  split
  next h => simp [h]
  next h => simp [h]

end Token

/-! ## Expressions and their tokens

`Yields` is the specification of the grammar without its order: it says of a tree which tokens it
stands for, and asks nothing about which other tree might have been read from them. That is left to
`Canonical`. -/

/-- The range from the first to the last of some tokens. For no tokens it has no meaning; no
expression has none. -/
def hull (ts : List Token) : Span :=
  ⟨(ts.head?.map (·.span.start)).getD 0, (ts.getLast?.map (·.span.stop)).getD 0⟩

/-- The tokens that an expression stands for, in order: a sign before its operand, an operator
between its sides. They have the spans that the expression says they have, and every node reaches
from its first token to its last. -/
inductive Expr.Yields : Expr → List Token → Prop
  | literal {value : Literal} {token : Token} (h : value.IsToken token) :
      Yields (.literal value token.span) [token]
  | paren {opening closing : Token} {inner : Expr} {ts : List Token}
      (hopening : opening.kind = .openParen) (h : Yields inner ts)
      (hclosing : closing.kind = .closeParen) :
      Yields (.paren inner (hull (opening :: ts ++ [closing]))) (opening :: ts ++ [closing])
  | unary {op : UnOp} {sign : Token} {operand : Expr} {ts : List Token}
      (hsign : sign.kind = op.kind) (h : Yields operand ts) :
      Yields (.unary op sign.span operand (hull (sign :: ts))) (sign :: ts)
  | binary {op : BinOp} {token : Token} {lhs rhs : Expr} {ts us : List Token}
      (hl : Yields lhs ts) (hop : token.kind = op.kind) (hr : Yields rhs us) :
      Yields (.binary op token.span lhs rhs (hull (ts ++ token :: us))) (ts ++ token :: us)

theorem Expr.Yields.span_eq {e : Expr} {ts : List Token} (h : e.Yields ts) : e.span = hull ts := by
  cases h <;> rfl

theorem Expr.Yields.ne_nil {e : Expr} {ts : List Token} (h : e.Yields ts) : ts ≠ [] := by
  cases h <;> simp

/-- What begins with some tokens and ends with others reaches from the start of the first to the
stop of the last. -/
theorem hull_append {ts us : List Token} (hts : ts ≠ []) (hus : us ≠ []) :
    hull (ts ++ us) = (hull ts).through (hull us) := by
  obtain ⟨t, ts, rfl⟩ := List.exists_cons_of_ne_nil hts
  have hlast : (t :: ts ++ us).getLast? = us.getLast? := by
    rw [List.getLast?_append, List.getLast?_eq_some_getLast hus, Option.some_or]
  rw [hull, hlast]
  rfl

theorem hull_cons {token : Token} {ts : List Token} (hts : ts ≠ []) :
    hull (token :: ts) = token.span.through (hull ts) :=
  hull_append (List.cons_ne_nil token []) hts

theorem hull_parens (opening closing : Token) (ts : List Token) :
    hull (opening :: ts ++ [closing]) = opening.span.through closing.span :=
  hull_append (List.cons_ne_nil opening ts) (List.cons_ne_nil closing [])

theorem hull_binary {token : Token} {ts us : List Token} (hts : ts ≠ []) (hus : us ≠ []) :
    hull (ts ++ token :: us) = (hull ts).through (hull us) := by
  rw [hull_append hts (List.cons_ne_nil token us), hull_cons hus]
  rfl

/-! ## Where parentheses may be missing

Read as: what may stand beside an operator without parentheses around it. To the left binds as tight
or tighter, to the right tighter, as operators group to the left; only powers group to the right,
and they take a sign on the right but not on the left. -/

namespace Expr

/-- The expression may stand to the left of the operator without parentheses. A sign on the left of
a power would be read as the sign of the power. -/
def FitsLeft (op : BinOp) : Expr → Prop
  | literal _ _ | paren _ _ => True
  | unary _ _ _ _ => op ≠ .exp
  | binary inner _ _ _ _ => op ≠ .exp ∧ op.precedence ≤ inner.precedence

/-- The expression may stand to the right of the operator without parentheses. A sign may always
stand there, as there is nothing it could be taken for. -/
def FitsRight (op : BinOp) : Expr → Prop
  | literal _ _ | paren _ _ | unary _ _ _ _ => True
  | binary inner _ _ _ _ =>
    if op = .exp then inner = .exp else op.precedence < inner.precedence

/-- The expression may stand after a sign without parentheses. A sign binds tighter than all
operators but the power. -/
def FitsSign : Expr → Prop
  | literal _ _ | paren _ _ | unary _ _ _ _ => True
  | binary inner _ _ _ _ => inner = .exp

/-- No parentheses are missing anywhere. -/
def Canonical : Expr → Prop
  | literal _ _ => True
  | paren inner _ => inner.Canonical
  | unary _ _ operand _ => operand.FitsSign ∧ operand.Canonical
  | binary op _ lhs rhs _ =>
    lhs.FitsLeft op ∧ rhs.FitsRight op ∧ lhs.Canonical ∧ rhs.Canonical

instance (op : BinOp) : DecidablePred (FitsLeft op)
  | literal _ _ | paren _ _ => inferInstanceAs (Decidable True)
  | unary _ _ _ _ => inferInstanceAs (Decidable (op ≠ .exp))
  | binary inner _ _ _ _ =>
    inferInstanceAs (Decidable (op ≠ .exp ∧ op.precedence ≤ inner.precedence))

instance (op : BinOp) : DecidablePred (FitsRight op)
  | literal _ _ | paren _ _ | unary _ _ _ _ => inferInstanceAs (Decidable True)
  | binary inner _ _ _ _ =>
    inferInstanceAs
      (Decidable (if op = .exp then inner = .exp else op.precedence < inner.precedence))

instance : DecidablePred FitsSign
  | literal _ _ | paren _ _ | unary _ _ _ _ => inferInstanceAs (Decidable True)
  | binary inner _ _ _ _ => inferInstanceAs (Decidable (inner = .exp))

def decideCanonical : (e : Expr) → Decidable e.Canonical
  | literal _ _ => inferInstanceAs (Decidable True)
  | paren inner _ => inner.decideCanonical
  | unary _ _ operand _ =>
    have := operand.decideCanonical
    inferInstanceAs (Decidable (operand.FitsSign ∧ operand.Canonical))
  | binary op _ lhs rhs _ =>
    have := lhs.decideCanonical
    have := rhs.decideCanonical
    inferInstanceAs (Decidable
      (lhs.FitsLeft op ∧ rhs.FitsRight op ∧ lhs.Canonical ∧ rhs.Canonical))

instance : DecidablePred Canonical := decideCanonical

end Expr

/-! ## What a parser has read

Inside of parentheses a line end is passed over, and outside of them it counts. So which tokens are
read one by one depends on the parentheses among them, and `Consumes` counts these along as the
parser does. -/

/-- How many parentheses are open after the token. -/
def Token.depthAfter (depth : Nat) (token : Token) : Nat :=
  match token.kind with
  | .openParen => depth + 1
  | .closeParen => depth - 1
  | _ => depth

namespace Token

variable {token : Token}

theorem depthAfter_of_openParen (h : token.kind = .openParen) (depth : Nat) :
    token.depthAfter depth = depth + 1 := by
  rw [depthAfter, h]

theorem depthAfter_of_closeParen (h : token.kind = .closeParen) (depth : Nat) :
    token.depthAfter depth = depth - 1 := by
  rw [depthAfter, h]

theorem depthAfter_of_ne (hopen : token.kind ≠ .openParen) (hclose : token.kind ≠ .closeParen)
    (depth : Nat) : token.depthAfter depth = depth := by
  unfold depthAfter
  split
  next h => exact (hopen h).elim
  next h => exact (hclose h).elim
  next => rfl

end Token

namespace ParserState

variable {token : Token}

/-- The state with the parentheses counted of a token that has been read. -/
def counting (token : Token) (st : ParserState) : ParserState :=
  { st with openParens := token.depthAfter st.openParens }

theorem counting_eq_self (hopen : token.kind ≠ .openParen) (hclose : token.kind ≠ .closeParen)
    (st : ParserState) : st.counting token = st := by
  rw [counting, Token.depthAfter_of_ne hopen hclose]

theorem deepened_counting (h : token.kind = .openParen) (st : ParserState) :
    (st.counting token).deepened = st.inside := by
  rw [counting, Token.depthAfter_of_openParen h]
  rfl

theorem raised_counting (h : token.kind = .closeParen) (st : ParserState) :
    (st.counting token).raised = st.outside := by
  rw [counting, Token.depthAfter_of_closeParen h]
  rfl

theorem counting_of_unaryOp {op : UnOp} (h : token.kind = op.kind) (st : ParserState) :
    st.counting token = st := by
  cases op <;> exact counting_eq_self (by simp [h, UnOp.kind]) (by simp [h, UnOp.kind]) st

theorem counting_of_binaryOp {op : BinOp} (h : token.kind = op.kind) (st : ParserState) :
    st.counting token = st := by
  cases op <;> exact counting_eq_self (by simp [h, BinOp.kind]) (by simp [h, BinOp.kind]) st

theorem counting_of_literal {value : Literal} (h : value.IsToken token) (st : ParserState) :
    st.counting token = st := by
  cases value <;> exact counting_eq_self (by simp [h.1]) (by simp [h.1]) st

end ParserState

/-- The tokens `ts` can be read one by one from `st` on, if the parentheses among them are counted,
and `st'` is where this ends. It says nothing of what was made of the tokens, and is used for
phrases of all kinds. -/
inductive Consumes : ParserState → List Token → ParserState → Prop
  | nil (st : ParserState) : Consumes st [] st
  | cons {st st₁ st' : ParserState} {token : Token} {ts : List Token}
      (h : Parser.next st = .ok token st₁) (hrest : Consumes (st₁.counting token) ts st') :
      Consumes st (token :: ts) st'

namespace Consumes

variable {st st₁ st₂ st₃ st' : ParserState} {ts ts' : List Token} {token opening closing : Token}

/-- Tokens in two parts are read one part after the other. -/
theorem append_iff :
    Consumes st (ts ++ ts') st' ↔ ∃ st₁, Consumes st ts st₁ ∧ Consumes st₁ ts' st' := by
  induction ts generalizing st with
  | nil =>
    constructor
    · intro h
      exact ⟨st, .nil st, h⟩
    · rintro ⟨st₁, hnil, h⟩
      cases hnil
      exact h
  | cons token ts ih =>
    constructor
    · intro h
      cases h with
      | cons hnext hrest =>
        obtain ⟨st₂, h, h'⟩ := ih.mp hrest
        exact ⟨st₂, .cons hnext h, h'⟩
    · rintro ⟨st₂, h, h'⟩
      cases h with
      | cons hnext hrest => exact .cons hnext (ih.mpr ⟨st₂, hrest, h'⟩)

theorem trans (h : Consumes st ts st₁) (h' : Consumes st₁ ts' st') :
    Consumes st (ts ++ ts') st' := append_iff.mpr ⟨st₁, h, h'⟩

/-- With every token that is read, and perhaps others passed over, there is less left. -/
theorem remaining_add_length_le (h : Consumes st ts st') :
    st'.remaining + ts.length ≤ st.remaining := by
  induction h with
  | nil st => exact Nat.le_refl _
  | @cons st st₁ st' token ts hnext hrest ih =>
    have hless := Parser.advances_next hnext
    have hsame : (st₁.counting token).remaining = st₁.remaining := rfl
    rw [List.length_cons]
    omega

theorem nesting_eq (h : Consumes st ts st') : st'.nesting = st.nesting := by
  induction h with
  | nil st => rfl
  | cons hnext hrest ih =>
    have hnesting := Parser.nesting_of_next hnext
    exact ih.trans hnesting

/-- How deep the nesting is makes no difference to reading tokens. -/
theorem nestedAt (h : Consumes st ts st') (nesting : Nat) :
    Consumes (st.nestedAt nesting) ts (st'.nestedAt nesting) := by
  induction h with
  | nil st => exact .nil _
  | cons hnext hrest ih => exact .cons (Parser.next_nestedAt hnext nesting) ih

theorem deepened (h : Consumes st ts st') : Consumes st.deepened ts st'.deepened := by
  rw [ParserState.deepened, ParserState.deepened, h.nesting_eq]
  exact h.nestedAt (st.nesting + 1)

theorem raised (h : Consumes st ts st') : Consumes st.raised ts st'.raised := by
  rw [ParserState.raised, ParserState.raised, h.nesting_eq]
  exact h.nestedAt (st.nesting - 1)

/-- What stands in parentheses is read within them, and a level deeper. -/
theorem parens_iff (hopen : opening.kind = .openParen) (hclose : closing.kind = .closeParen) :
    Consumes st (opening :: ts ++ [closing]) st' ↔ ∃ st₁ st₂ st₃,
      Parser.next st = .ok opening st₁ ∧ Consumes st₁.inside ts st₂ ∧
        Parser.next st₂ = .ok closing st₃ ∧ st' = st₃.outside := by
  have hinside := ParserState.deepened_counting hopen
  have houtside : ∀ st₃ : ParserState, st₃.raised.counting closing = st₃.outside :=
    ParserState.raised_counting hclose
  constructor
  · intro h
    cases h with
    | cons hopening hrest =>
      obtain ⟨st₂, hts, hlast⟩ := append_iff.mp hrest
      cases hlast with
      | cons hclosing hnil =>
        cases hnil
        refine ⟨_, _, _, hopening, ?_, Parser.next_deepened hclosing, ?_⟩
        · rw [← hinside]
          exact hts.deepened
        · rw [← houtside]
          rfl
  · rintro ⟨st₁, st₂, st₃, hopening, hts, hclosing, rfl⟩
    -- tokens count open parentheses and no levels, so the inside is read a level up for this
    refine .cons hopening (append_iff.mpr ⟨st₂.raised, ?_, ?_⟩)
    · rw [← hinside] at hts
      exact hts.raised
    · rw [← houtside]
      exact .cons (Parser.next_raised hclosing) (.nil _)

end Consumes

end ThreeAddress
