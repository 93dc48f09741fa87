import ThreeAddress.Grammar

/-!
# The height of a tree

`Expr.height` is measured on a walk, with the nodes that are still to be seen in a list, so that the
depth of a tree costs no depth of calls. Here it is what a recursion into the tree would give, and
the equations at the end say so node by node.
-/

set_option autoImplicit false

namespace ThreeAddress

namespace Expr

/-- How many levels there are below the root. -/
def levelsBelow : Expr → Nat
  | literal _ _ => 0
  | paren inner _ => inner.levelsBelow + 1
  | unary _ _ operand _ => operand.levelsBelow + 1
  | binary _ _ lhs rhs _ => max lhs.levelsBelow rhs.levelsBelow + 1

/-- The walk has seen the deepest node of a tree when it gets to what waits behind the tree. By
induction on the tree, for any number of turns that are left over and any list behind it. -/
theorem walk_size_add (e : Expr) (turns most level : Nat) (waiting : List (Expr × Nat)) :
    walk (e.size + turns) most ((e, level) :: waiting) =
      walk turns (max most (level + e.levelsBelow)) waiting := by
  induction e generalizing turns most level waiting with
  | literal value span =>
    rw [size, Nat.add_comm, walk]
    rfl
  | paren inner span ih =>
    rw [size, Nat.add_right_comm, walk, children, List.map_singleton, List.singleton_append, ih,
      levelsBelow, show max (max most level) (level + 1 + inner.levelsBelow) =
        max most (level + (inner.levelsBelow + 1)) by omega]
  | unary op opSpan operand span ih =>
    rw [size, Nat.add_right_comm, walk, children, List.map_singleton, List.singleton_append, ih,
      levelsBelow, show max (max most level) (level + 1 + operand.levelsBelow) =
        max most (level + (operand.levelsBelow + 1)) by omega]
  | binary op opSpan lhs rhs span ihl ihr =>
    have hturns : lhs.size + rhs.size + 1 + turns = rhs.size + (lhs.size + turns) + 1 := by omega
    have hmost : max (max (max most level) (level + 1 + rhs.levelsBelow))
        (level + 1 + lhs.levelsBelow) =
        max most (level + (max lhs.levelsBelow rhs.levelsBelow + 1)) := by omega
    rw [size, hturns, walk]
    show walk _ _ ((rhs, level + 1) :: (lhs, level + 1) :: waiting) = _
    rw [ihr, ihl, hmost, levelsBelow]

/-- A tree has its root and the levels below it. -/
theorem height_eq (e : Expr) : e.height = e.levelsBelow + 1 := by
  have hwalk := walk_size_add e 0 0 1 []
  rw [Nat.add_zero, walk] at hwalk
  rw [height, hwalk]
  omega

variable {op : BinOp} {sign : UnOp} {opSpan span : Span} {value : Literal} {inner lhs rhs : Expr}

@[simp] theorem height_literal : (literal value span).height = 1 := height_eq _

@[simp] theorem height_paren : (paren inner span).height = 1 + inner.height := by
  rw [height_eq, height_eq, levelsBelow, Nat.add_comm]

@[simp] theorem height_unary : (unary sign opSpan inner span).height = 1 + inner.height := by
  rw [height_eq, height_eq, levelsBelow, Nat.add_comm]

@[simp] theorem height_binary :
    (binary op opSpan lhs rhs span).height = 1 + max lhs.height rhs.height := by
  rw [height_eq, height_eq, height_eq, levelsBelow]
  omega

end Expr

end ThreeAddress
