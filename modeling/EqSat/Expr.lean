import EqSat.Tree

/-!
# Expressions

An expression is what a caller writes: a ground term whose leaves each carry a piece of
the caller's own information, such as a place in a file.  Nothing here looks at that
information, and expressions are compared without it.

    e.toTree.toExpr = e.strip        (toExpr_toTree)
    t.toExpr.toTree = t              (toTree_toExpr)
-/

namespace EqSat

/-- An item with information that comparisons ignore. -/
structure Tagged (α μ : Type) where
  item : α
  info : μ
deriving DecidableEq, Repr

namespace Tagged

variable {α β μ ν : Type}

def map (f : α → β) (t : Tagged α μ) : Tagged β μ := ⟨f t.item, t.info⟩

def mapInfo (f : μ → ν) (t : Tagged α μ) : Tagged α ν := ⟨t.item, f t.info⟩

/-- Equal items, whatever the information. -/
def agrees [DecidableEq α] (a b : Tagged α μ) : Bool := a.item == b.item

instance [Ord α] : Ord (Tagged α μ) := ⟨compareOn item⟩

instance [Ord α] : LT (Tagged α μ) := ltOfOrd

instance [Ord α] : LE (Tagged α μ) := leOfOrd

instance [ToString α] : ToString (Tagged α μ) := ⟨fun t => toString t.item⟩

end Tagged

/-- A ground term with information of type `μ` at every leaf. -/
inductive Expr (μ : Type) where
  | leaf (l : Tagged Leaf μ)
  | unary (op : UnaryOp) (e : Expr μ)
  | binary (op : BinaryOp) (e f : Expr μ)
deriving DecidableEq, Repr

namespace Expr

variable {μ ν : Type}

def children : Expr μ → List (Expr μ)
  | leaf _ => []
  | unary _ e => [e]
  | binary _ e f => [e, f]

def mapInfo (f : μ → ν) : Expr μ → Expr ν
  | leaf l => leaf (l.mapInfo f)
  | unary op e => unary op (e.mapInfo f)
  | binary op e g => binary op (e.mapInfo f) (g.mapInfo f)

/-- Rename the variables. -/
def mapVars (f : String → String) : Expr μ → Expr μ
  | leaf ⟨.var s, info⟩ => leaf ⟨.var (f s), info⟩
  | leaf l => leaf l
  | unary op e => unary op (e.mapVars f)
  | binary op e g => binary op (e.mapVars f) (g.mapVars f)

/-- Drop the information. -/
def strip (e : Expr μ) : Expr Unit := e.mapInfo fun _ => ()

/-- Equal without their information. -/
def agrees (e f : Expr μ) : Bool := e.strip == f.strip

/-- The variables from left to right, with repeats. -/
def vars : Expr μ → List String
  | leaf ⟨.var s, _⟩ => [s]
  | leaf _ => []
  | unary _ e => e.vars
  | binary _ e f => e.vars ++ f.vars

/-- Every operand stands in parentheses, and the operator before, after or between them;
`rest` follows. -/
def infixOnto : Expr μ → List Char → List Char
  | leaf l, rest => l.item.label.toList ++ rest
  | unary op e, rest =>
    if op.followsOperand then '(' :: e.infixOnto (')' :: (op.symbol.toList ++ rest))
    else op.symbol.toList ++ '(' :: e.infixOnto (')' :: rest)
  | binary op e f, rest =>
    '(' :: e.infixOnto
      (')' :: ' ' :: (op.symbol.toList ++ ' ' :: '(' :: f.infixOnto (')' :: rest)))

/-- The expression in infix form, fully parenthesised. -/
def infixText (e : Expr μ) : String := String.ofList (e.infixOnto [])

instance : ToString (Expr μ) := ⟨infixText⟩

/-- The ground term under the information. -/
def toTree : Expr μ → Tree
  | leaf l => .leaf l.item
  | unary op e => .unary op e.toTree
  | binary op e f => .binary op e.toTree f.toTree

/-- The expression whose top is the node over the expressions of its operands. -/
def ofNode : Node (Expr Unit) → Expr Unit
  | .leaf l => leaf ⟨l, ()⟩
  | .unary op e => unary op e
  | .binary op e f => binary op e f

instance : Inhabited (Expr Unit) := ⟨leaf ⟨default, ()⟩⟩

end Expr

/-- A ground term as an expression without information. -/
def Tree.toExpr : Tree → Expr Unit
  | .leaf l => .leaf ⟨l, ()⟩
  | .unary op t => .unary op t.toExpr
  | .binary op t u => .binary op t.toExpr u.toExpr

/-! ## Lemmas -/

theorem Tree.toTree_toExpr (t : Tree) : t.toExpr.toTree = t := by
  induction t with
  | leaf l => rfl
  | unary op t ih => simp [toExpr, Expr.toTree, ih]
  | binary op t u iht ihu => simp [toExpr, Expr.toTree, iht, ihu]

theorem Expr.toExpr_toTree {μ : Type} (e : Expr μ) : e.toTree.toExpr = e.strip := by
  induction e with
  | leaf l => rfl
  | unary op e ih => simpa [toTree, Tree.toExpr, strip, mapInfo] using ih
  | binary op e f ihe ihf =>
    simp only [toTree, Tree.toExpr, ihe, ihf]
    rfl

theorem Expr.agrees_iff {μ : Type} (e f : Expr μ) : e.agrees f = true ↔ e.toTree = f.toTree := by
  rw [agrees, beq_iff_eq, ← toExpr_toTree, ← toExpr_toTree]
  exact ⟨fun h => by simpa [Tree.toTree_toExpr] using congrArg toTree h, fun h => by rw [h]⟩

end EqSat
