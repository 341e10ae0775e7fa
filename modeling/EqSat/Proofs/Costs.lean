import EqSat.Extraction
import EqSat.Proofs.Terms

/-!
# Cost functions

The cost of a tree is computed from the leaves up.  An extraction asks two things of a cost
function: a node costs at least what each of its children costs, and it does not become cheaper
when a child becomes dearer.  Sizes, heights and sums of weights are such.  A size does become
larger with that of a child.

    tree_ofNode       the cost of a tree is that of its root over the costs of its operands
    tree_size         the size of a tree is the number of its nodes
-/

namespace EqSat

namespace CostFunction

variable {κ : Type} {cost : CostFunction Nat}

/-- The cost of a tree. -/
def tree (cost : CostFunction κ) : Tree → κ
  | .leaf l => cost (.leaf l)
  | .unary op t => cost (.unary op (cost.tree t))
  | .binary op t u => cost (.binary op (cost.tree t) (cost.tree u))

theorem tree_ofNode (cost : CostFunction κ) (n : Node Tree) :
    cost.tree (.ofNode n) = cost (n.map cost.tree) := by
  cases n <;> rfl

/-- A node costs at least what each of its children costs. -/
def Above (cost : CostFunction Nat) : Prop := ∀ n, ∀ k ∈ n.children, k ≤ cost n

/-- A node does not become cheaper when its children become dearer. -/
def Monotone (cost : CostFunction Nat) : Prop :=
  ∀ n : Node (Nat × Nat), (∀ p ∈ n.children, p.1 ≤ p.2) →
    cost (n.map Prod.fst) ≤ cost (n.map Prod.snd)

theorem Monotone.map_le {α : Type} (h : cost.Monotone) {n : Node α} {f g : α → Nat}
    (hle : ∀ a ∈ n.children, f a ≤ g a) : cost (n.map f) ≤ cost (n.map g) := by
  have hpairs := h (n.map fun a => (f a, g a)) (Node.forall_mem_children_map.2 hle)
  rwa [Node.map_map, Node.map_map] at hpairs

/-- A node becomes dearer when a child does. -/
def Strict (cost : CostFunction Nat) : Prop :=
  ∀ n : Node (Nat × Nat), (∀ p ∈ n.children, p.1 ≤ p.2) →
    cost (n.map Prod.fst) = cost (n.map Prod.snd) → ∀ p ∈ n.children, p.1 = p.2

theorem Strict.eq_of_map_eq {α : Type} (h : cost.Strict) {n : Node α} {f g : α → Nat}
    (hle : ∀ a ∈ n.children, f a ≤ g a) (heq : cost (n.map f) = cost (n.map g)) :
    ∀ a ∈ n.children, f a = g a := by
  have hpairs := h (n.map fun a => (f a, g a)) (Node.forall_mem_children_map.2 hle)
    (by rwa [Node.map_map, Node.map_map])
  exact Node.forall_mem_children_map.1 hpairs

theorem Above.tree_le (h : cost.Above) {n : Node Tree} {t : Tree} (ht : t ∈ n.children) :
    cost.tree t ≤ cost.tree (.ofNode n) := by
  rw [tree_ofNode]
  exact h _ _ (Node.mem_children_map _ ht)

/-! ## The cost functions there are -/

theorem above_size : size.Above := by
  intro n k hk
  cases n <;> simp [Node.children] at hk <;> simp [size, Term.sizeOfNode, Node.total] <;> omega

theorem monotone_size : size.Monotone := by
  intro n h
  cases n <;> simp [Node.children] at h <;>
    simp [size, Term.sizeOfNode, Node.map, Node.total] <;> omega

theorem strict_size : size.Strict := by
  intro n h heq
  cases n <;> simp [Node.children] at h ⊢ <;>
    simp [size, Term.sizeOfNode, Node.map, Node.total] at heq <;> omega

theorem above_depth : depth.Above := by
  intro n k hk
  cases n <;> simp [Node.children] at hk <;> simp [depth] <;> omega

theorem monotone_depth : depth.Monotone := by
  intro n h
  cases n <;> simp [Node.children] at h <;> simp [Node.map, depth] <;> omega

theorem above_weighted (weights : List (String × Nat)) : (weighted weights).Above := by
  intro n k hk
  cases n <;> simp [Node.children] at hk <;> simp [weighted, Node.total] <;> omega

theorem monotone_weighted (weights : List (String × Nat)) : (weighted weights).Monotone := by
  intro n h
  cases n <;> simp [Node.children] at h <;>
    simp [Node.map, Node.label, weighted, Node.total] <;> omega

theorem tree_size (t : Tree) : size.tree t = t.size := by
  induction t with
  | leaf l => rfl
  | unary op t ih =>
    rw [tree, ih]
    rfl
  | binary op t u iht ihu =>
    rw [tree, iht, ihu]
    exact (Nat.add_assoc 1 t.size u.size).symm

end CostFunction

end EqSat
