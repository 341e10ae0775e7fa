import EqSat.Expr
import Std.Data.TreeMap

/-!
# Terms as node lists

A term is a list of nodes whose children are positions of earlier nodes; the last node is
the root.  Nodes may be shared, and nodes that the root does not reach may stand between
the others, so a short list can stand for a very large tree.  Cost, text and equality are
therefore computed along the list, one value a node.

    append t n fails exactly when a child of n is not a position of t        (append_isOk_iff)
-/

namespace EqSat

/-- Nodes in an order in which every child stands before its parent. -/
structure Term where
  nodes : Array (Node Nat)
  ordered : ∀ (i : Nat) (h : i < nodes.size), ∀ c ∈ nodes[i].children, c < i

/-- Why a term without nodes cannot be used. -/
inductive EmptyTermError where
  | noRoot
  | nothingToAdd
deriving DecidableEq, Repr

def EmptyTermError.message : EmptyTermError → String
  | noRoot => "empty term expression has no root"
  | nothingToAdd => "cannot add an empty term expression"

/-- A reference to a position that holds no node. -/
structure MissingChild where
  id : Int
deriving DecidableEq, Repr

def MissingChild.message (e : MissingChild) : String :=
  "child id " ++ toString e.id ++ " is not in this expression"

namespace Term

def empty : Term := ⟨#[], fun i h => absurd h (Nat.not_lt_zero i)⟩

instance : EmptyCollection Term := ⟨empty⟩

instance : Inhabited Term := ⟨empty⟩

def size (t : Term) : Nat := t.nodes.size

def isEmpty (t : Term) : Bool := t.size == 0

/-- The position of the last node. -/
def root? (t : Term) : Option Nat := if t.isEmpty then none else some (t.size - 1)

/-! ## Building -/

/-- Add a node whose children are present. -/
def push (t : Term) (n : Node Nat) (h : ∀ c ∈ n.children, c < t.size) : Term where
  nodes := t.nodes.push n
  ordered := by
    intro i hi c hc
    by_cases hlt : i < t.nodes.size
    · rw [Array.getElem_push_lt hlt] at hc
      exact t.ordered i hlt c hc
    · have hi' : i = t.nodes.size := by
        rw [Array.size_push] at hi
        omega
      subst hi'
      rw [Array.getElem_push_eq] at hc
      exact h c hc

/-- Add a node if its children are present. -/
def push? (t : Term) (n : Node Nat) : Option Term :=
  if h : ∀ c ∈ n.children, c < t.size then some (t.push n h) else none

/-- Add a node over arbitrary references, or name the first one that is not present. -/
def append (t : Term) (n : Node Int) : Except MissingChild Term :=
  match h : n.children.find? fun c => c < 0 || (t.size : Int) ≤ c with
  | some c => .error ⟨c⟩
  | none => .ok (t.push (n.map Int.toNat) (by
      intro c hc
      rw [Node.children_map, List.mem_map] at hc
      obtain ⟨d, hd, rfl⟩ := hc
      have := List.find?_eq_none.1 h d hd
      simp only [Bool.or_eq_true, decide_eq_true_eq, not_or] at this
      omega))

/-- Add the nodes in order. -/
def ofNodes (ns : List (Node Int)) : Except MissingChild Term := ns.foldlM append empty

/-- Add a tree's nodes in post-order, without sharing; the tree's root comes last. -/
def addTree (t : Term) : Tree → { u : Term // t.size < u.size }
  | .leaf l => ⟨t.push (.leaf l) (by simp [Node.children]), by simp [push, size]⟩
  | .unary op x =>
    let u := t.addTree x
    ⟨u.1.push (.unary op (u.1.size - 1)) (by
        have := u.2
        simp only [Node.children, List.mem_singleton, forall_eq]
        omega),
      by have := u.2; simp only [push, size, Array.size_push] at *; omega⟩
  | .binary op x y =>
    let u := t.addTree x
    let v := u.1.addTree y
    ⟨v.1.push (.binary op (u.1.size - 1) (v.1.size - 1)) (by
        have := u.2
        have := v.2
        simp only [Node.children, List.mem_cons, List.not_mem_nil, or_false, forall_eq_or_imp,
          forall_eq]
        omega),
      by have := u.2; have := v.2; simp only [push, size, Array.size_push] at *; omega⟩

/-- A tree laid out in post-order. -/
def ofTree (t : Tree) : Term := empty.addTree t

/-- Add an expression's nodes in post-order; gives the position of its top node too. -/
def addExpr {μ : Type} (t : Term) (e : Expr μ) : Term × Nat :=
  let u := t.addTree e.toTree
  (u, u.1.size - 1)

def ofExpr {μ : Type} (e : Expr μ) : Term := ofTree e.toTree

/-- Read a term from text. -/
def read (source : String) : Except TermError Term := (Tree.read source).map ofTree

/-! ## Values along the list -/

/-- Compute a value for every node from the values of its children. -/
def values {β : Type} (f : Node β → β) (t : Term) : Array β :=
  t.nodes.foldl (fun vs n => match n.mapM (vs[·]?) with
    | some m => vs.push (f m)
    | none => vs) #[]

/-- Number of nodes of the tree over the children's counts. -/
def sizeOfNode (n : Node Nat) : Nat := 1 + n.total

/-- Number of nodes in the tree that the node at `i` unfolds to. -/
def costAt? (t : Term) (i : Nat) : Option Nat := (t.values sizeOfNode)[i]?

/-- The tree that the node at `i` unfolds to; shared nodes are shared subtrees. -/
def treeAt? (t : Term) (i : Nat) : Option Tree := (t.values Tree.ofNode)[i]?

/-- The expression that the node at `i` stands for. -/
def exprAt? (t : Term) (i : Nat) : Option (Expr Unit) := (t.values Expr.ofNode)[i]?

def cost? (t : Term) : Option Nat := t.root?.bind t.costAt?

/-- The tree that the root unfolds to. -/
def tree? (t : Term) : Option Tree := t.root?.bind t.treeAt?

/-- The expression that the root stands for. -/
def expr? (t : Term) : Option (Expr Unit) := t.root?.bind t.exprAt?

/-- The text of the tree at the root; nothing for a term without nodes. -/
def text (t : Term) : String := (t.tree?.map Tree.text).getD ""

/-- The infix form of the tree at the root; nothing for a term without nodes. -/
def infixText (t : Term) : String := (t.tree?.map fun u => u.toExpr.infixText).getD ""

/-! ## Equality -/

/-- Numbers given to nodes so far, by head and by the numbers of the children. -/
abbrev Shapes := Std.TreeMap (Node Nat) Nat

/-- Number the nodes so that equal subtrees get equal numbers, and go on from `table`. -/
def shapes (table : Shapes) (t : Term) : Array Nat × Shapes :=
  t.nodes.foldl (fun (ids, table) n =>
    match n.mapM (ids[·]?) with
    | none => (ids, table)
    | some m =>
      match table[m]? with
      | some id => (ids.push id, table)
      | none => (ids.push table.size, table.insert m table.size)) (#[], table)

/-- Both are empty, or their roots unfold to the same tree.  Shared nodes are numbered
once and never unfolded. -/
def agrees (t u : Term) : Bool :=
  let (ts, table) := t.shapes ∅
  let (us, _) := u.shapes table
  ts.back? == us.back?

/-! ## Lemmas -/

theorem append_isOk_iff (t : Term) (n : Node Int) :
    (∃ u, t.append n = .ok u) ↔ ∀ c ∈ n.children, 0 ≤ c ∧ c < t.size := by
  unfold append
  split
  · next c h =>
    have hc := List.find?_some h
    simp only [reduceCtorEq, exists_false, false_iff, Classical.not_forall]
    refine ⟨c, List.mem_of_find?_eq_some h, ?_⟩
    simp only [Bool.or_eq_true, decide_eq_true_eq] at hc
    omega
  · next h =>
    refine iff_of_true ⟨_, rfl⟩ fun c hc => ?_
    have := List.find?_eq_none.1 h c hc
    simp only [Bool.or_eq_true, decide_eq_true_eq, not_or] at this
    omega

end Term

end EqSat
