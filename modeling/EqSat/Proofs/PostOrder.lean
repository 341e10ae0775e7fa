import EqSat.Proofs.Represented
import Mathlib.Data.List.Perm.Basic

/-!
# Trees laid out in post-order

A tree is laid out operands first, from left to right, and every operator refers to the last nodes
of its operands.  No node is shared: each of them is an operand of one other node, the last one
apart.  Adding a tree to a term lays it out behind the nodes that are there.

    Tree.perm_children_postOrder      every node but the last is an operand once
    Term.nodes_addTree                what adding a tree adds
    Term.cost?_ofTree                 a tree laid out has as many nodes as the tree
-/

namespace EqSat

theorem range'_eq_concat {base n : Nat} (h : 0 < n) :
    List.range' base n = List.range' base (n - 1) ++ [base + n - 1] := by
  obtain ⟨m, rfl⟩ := Nat.exists_eq_add_of_lt h
  rw [Nat.zero_add, List.range'_1_concat]
  rfl

namespace Tree

/-- The nodes of the tree in post-order, in the positions from `base` on. -/
def postOrder (base : Nat) : Tree → List (Node Nat)
  | leaf l => [.leaf l]
  | unary op t => t.postOrder base ++ [.unary op (base + t.size - 1)]
  | binary op t u =>
    t.postOrder base ++ u.postOrder (base + t.size) ++
      [.binary op (base + t.size - 1) (base + t.size + u.size - 1)]

theorem length_postOrder (t : Tree) (base : Nat) : (t.postOrder base).length = t.size := by
  induction t generalizing base with
  | leaf l => rfl
  | unary op t ih =>
    simp only [postOrder, size, List.length_append, List.length_singleton, ih]
    omega
  | binary op t u iht ihu =>
    simp only [postOrder, size, List.length_append, List.length_singleton, iht, ihu]
    omega

/-- **No node is shared**: all but the last are operands, and each of them once. -/
theorem perm_children_postOrder (t : Tree) (base : Nat) :
    ((t.postOrder base).flatMap Node.children).Perm (List.range' base (t.size - 1)) := by
  induction t generalizing base with
  | leaf l => exact .refl _
  | unary op t ih =>
    have hsize : (unary op t).size - 1 = t.size := by
      simp only [size]
      omega
    rw [hsize, range'_eq_concat t.size_pos, postOrder, List.flatMap_append]
    exact (ih base).append_right _
  | binary op t u iht ihu =>
    have hsize : (binary op t u).size - 1 = t.size + u.size := by
      simp only [size]
      omega
    have hrange : List.range' base (t.size + u.size) =
        List.range' base t.size ++ List.range' (base + t.size) u.size := by
      rw [List.range'_append_1]
    rw [hsize, hrange, range'_eq_concat t.size_pos, range'_eq_concat u.size_pos, postOrder,
      List.flatMap_append, List.flatMap_append]
    -- the two operands stand last on the left, and each behind its own nodes on the right
    refine (((iht base).append (ihu (base + t.size))).append_right _).trans ?_
    show (_ ++ _ ++ ([base + t.size - 1] ++ [base + t.size + u.size - 1])).Perm _
    rw [List.append_assoc, List.append_assoc]
    refine List.Perm.append_left _ ?_
    rw [← List.append_assoc, ← List.append_assoc]
    exact List.perm_append_comm.append_right _

end Tree

namespace Term

theorem nodes_push {t : Term} {n : Node Nat} (h : ∀ c ∈ n.children, c < t.size) :
    (t.push n h).nodes.toList = t.nodes.toList ++ [n] := Array.toList_push

theorem size_eq_of_nodes_eq {t s : Term} {ns : List (Node Nat)}
    (h : s.nodes.toList = t.nodes.toList ++ ns) : s.size = t.size + ns.length := by
  have hlen := congrArg List.length h
  simpa [size] using hlen

/-- **Adding a tree** lays it out behind the nodes that are there. -/
theorem nodes_addTree (t : Term) (u : Tree) :
    (t.addTree u).1.nodes.toList = t.nodes.toList ++ u.postOrder t.size := by
  induction u generalizing t with
  | leaf l => exact Array.toList_push
  | unary op x ih =>
    have hx := size_eq_of_nodes_eq (ih t)
    rw [Tree.length_postOrder] at hx
    rw [addTree, nodes_push, ih, hx, Tree.postOrder, List.append_assoc]
  | binary op x y ihx ihy =>
    have hx := size_eq_of_nodes_eq (ihx t)
    have hy := size_eq_of_nodes_eq (ihy (t.addTree x).1)
    rw [Tree.length_postOrder] at hx hy
    rw [addTree, nodes_push, ihy, ihx, hy, hx, Tree.postOrder]
    simp only [List.append_assoc]

theorem size_addTree (t : Term) (u : Tree) : (t.addTree u).1.size = t.size + u.size := by
  rw [size_eq_of_nodes_eq (t.nodes_addTree u), Tree.length_postOrder]

theorem nodes_ofTree (u : Tree) : (ofTree u).nodes.toList = u.postOrder 0 := nodes_addTree empty u

theorem size_ofTree (u : Tree) : (ofTree u).size = u.size := by
  rw [ofTree, size_addTree]
  exact Nat.zero_add _

theorem ofTree_eq_iff {t : Term} {u : Tree} : ofTree u = t ↔ t.nodes.toList = u.postOrder 0 := by
  constructor
  · rintro rfl
    exact nodes_ofTree u
  · intro h
    have hlist : (ofTree u).nodes.toList = t.nodes.toList := by rw [nodes_ofTree, h]
    exact eq_of_nodes (Array.toList_inj.1 hlist)

theorem cost?_ofTree (u : Tree) : (ofTree u).cost? = some (ofTree u).size := by
  rw [cost?_of_tree? (tree?_ofTree u), size_ofTree]

end Term
end EqSat
