import EqSat.Proofs.Costs
import EqSat.Proofs.EGraph.Calls

/-!
# The terms of a class

A class represents the trees that one of its nodes lists, over classes that represent the
operands.  A class may lose a node, but it then lists a leaf, or the same node over the classes
that the children belong to by then.  So whatever a class represented, it still represents a tree
that is no larger.

In a graph in order every class represents a tree: each id was made for a node over older ids.

    represents_iff      a tree is represented by a node, over classes that represent its operands
    Grows.covers        the trees of a class in a later graph are no larger
    Valid.grounded      every class represents a tree
-/

namespace EqSat

namespace Node

variable {α β : Type}

theorem isLeaf_map (f : α → β) (n : Node α) : (n.map f).isLeaf = n.isLeaf := by cases n <;> rfl

theorem map_snd_pair (f : α → β) (n : Node α) : (n.map fun a => (f a, a)).map Prod.snd = n :=
  (n.map_map _ _).trans n.map_id

end Node

namespace Tree

theorem ofNode_injective {m n : Node Tree} (h : ofNode m = ofNode n) : m = n := by
  cases m <;> cases n <;> simp_all [ofNode]

/-- A tree is a node over trees for which the claim holds already. -/
theorem ofNode_induction {P : Tree → Prop} (h : ∀ n, (∀ t ∈ n.children, P t) → P (ofNode n))
    (t : Tree) : P t := by
  induction t with
  | leaf l => exact h (.leaf l) fun t ht => by cases ht
  | unary op t ih => exact h (.unary op t) (by simpa [Node.children] using ih)
  | binary op t u iht ihu =>
    exact h (.binary op t u) (by simpa [Node.children] using ⟨iht, ihu⟩)

theorem size_ofNode (n : Node Tree) : (ofNode n).size = CostFunction.size (n.map size) := by
  rw [← CostFunction.tree_size, CostFunction.tree_ofNode]
  exact congrArg _ (Node.map_congr fun t _ => CostFunction.tree_size t)

/-- Operands are smaller. -/
theorem size_lt_of_mem {n : Node Tree} {t : Tree} (ht : t ∈ n.children) :
    t.size < (ofNode n).size := by
  cases n <;> simp [Node.children] at ht <;> simp only [ofNode, size] <;> grind

theorem size_pos (t : Tree) : 0 < t.size := by cases t <;> simp only [size] <;> omega

end Tree

/-- The cost of a term is the size of its tree. -/
theorem Term.cost?_of_tree? {t : Term} {u : Tree} (h : t.tree? = some u) :
    t.cost? = some u.size := by
  obtain ⟨hempty, rfl⟩ := treeAt_of_tree? h
  rw [cost?, root?, hempty, if_neg Bool.false_ne_true, Option.bind_some, costAt?]
  exact getElem_values (t.steps_of_tree Tree.size_ofNode) (size_sub_one_lt hempty)

namespace EGraph

variable {D : Type} {I : Meaning D} {g g' g'' : EGraph} {o o' : Origin D} {u v : Usage}
  {a b id : ClassId} {n : ENode} {t : Tree}

theorem mem_nodesAt : n ∈ g.nodesAt id ↔ ∃ c, g.classAt? id = some c ∧ n ∈ c.nodes := by
  unfold nodesAt
  cases g.classAt? id with
  | none => simp
  | some c => simp

theorem mem_nodesAt_of_stored (hs : g.Shape) {c : EClass} (hc : g.stored? id = some c) :
    n ∈ g.nodesAt id ↔ n ∈ c.nodes := by
  simp [mem_nodesAt, classAt_of_stored hs hc]

theorem nodesAt_of_find_eq (h : g.find a = g.find b) : g.nodesAt a = g.nodesAt b := by
  rw [nodesAt, nodesAt, classAt?, classAt?, h]

theorem lt_of_mem_nodesAt (hs : g.Shape) (hn : n ∈ g.nodesAt id) : id < g.size := by
  obtain ⟨c, hc, -⟩ := mem_nodesAt.1 hn
  exact (find_lt_iff hs).1 (lt_of_stored hs hc)

theorem nodesAt_of_size_le (hs : g.Shape) (hid : g.size ≤ id) : g.nodesAt id = [] := by
  cases hn : g.nodesAt id with
  | nil => rfl
  | cons n ns =>
    refine absurd (lt_of_mem_nodesAt (n := n) hs ?_) (Nat.not_lt_of_le hid)
    rw [hn]
    exact List.mem_cons_self

/-! ## Represented trees -/

/-- The class represents the tree. -/
def Represents (g : EGraph) : Tree → ClassId → Prop
  | .leaf l, id => .leaf l ∈ g.nodesAt id
  | .unary op t, id => ∃ a, .unary op a ∈ g.nodesAt id ∧ g.Represents t a
  | .binary op t u, id =>
    ∃ a b, .binary op a b ∈ g.nodesAt id ∧ g.Represents t a ∧ g.Represents u b

/-- A tree is represented by a listed node, over classes that represent its operands. -/
theorem represents_iff : g.Represents t id ↔ ∃ q : Node (Tree × ClassId),
    t = .ofNode (q.map Prod.fst) ∧ q.map Prod.snd ∈ g.nodesAt id ∧
      ∀ p ∈ q.children, g.Represents p.1 p.2 := by
  constructor
  · intro h
    cases t with
    | leaf l => exact ⟨.leaf l, rfl, h, fun p hp => by cases hp⟩
    | unary op t =>
      obtain ⟨a, ha, ht⟩ := h
      exact ⟨.unary op (t, a), rfl, ha, by simpa [Node.children] using ht⟩
    | binary op t u =>
      obtain ⟨a, b, hab, ht, hu⟩ := h
      exact ⟨.binary op (t, a) (u, b), rfl, hab, by simpa [Node.children] using ⟨ht, hu⟩⟩
  · rintro ⟨q, rfl, hq, h⟩
    cases q with
    | leaf l => exact hq
    | unary op p => exact ⟨p.2, hq, h p (by simp [Node.children])⟩
    | binary op p p' =>
      exact ⟨p.2, p'.2, hq, h p (by simp [Node.children]), h p' (by simp [Node.children])⟩

theorem Represents.of_find_eq (h : g.Represents t a) (hab : g.find a = g.find b) :
    g.Represents t b := by
  obtain ⟨q, rfl, hq, hchild⟩ := represents_iff.1 h
  exact represents_iff.2 ⟨q, rfl, nodesAt_of_find_eq hab ▸ hq, hchild⟩

/-- The tree of a listed node, over any trees of its children. -/
theorem represents_ofNode {f : ClassId → Tree} (hn : n ∈ g.nodesAt id)
    (h : ∀ a ∈ n.children, g.Represents (f a) a) : g.Represents (.ofNode (n.map f)) id := by
  refine represents_iff.2 ⟨n.map fun a => (f a, a), ?_, ?_, Node.forall_mem_children_map.2 h⟩
  · rw [Node.map_map]
    rfl
  · rwa [Node.map_snd_pair]

theorem isLeaf_of_canonicalize_eq {m n : ENode} (h : g.canonicalize m = g.canonicalize n) :
    m.isLeaf = n.isLeaf := by
  rw [← Node.isLeaf_map g.find m, ← Node.isLeaf_map g.find n]
  exact congrArg _ h

theorem represents_of_canonicalize_eq {q : Node (Tree × ClassId)} (hn : n ∈ g.nodesAt id)
    (hcan : g.canonicalize n = g.canonicalize (q.map Prod.snd))
    (h : ∀ p ∈ q.children, g.Represents p.1 p.2) : g.Represents (.ofNode (q.map Prod.fst)) id := by
  cases q <;> cases n <;> simp only [canonicalize, Node.map, reduceCtorEq, Node.leaf.injEq,
    Node.unary.injEq, Node.binary.injEq, Node.children, List.mem_cons, List.not_mem_nil, or_false,
    forall_eq_or_imp, forall_eq] at hcan h
  case leaf.leaf => exact hcan ▸ hn
  case unary.unary op p op' a =>
    obtain ⟨rfl, ha⟩ := hcan
    exact ⟨a, hn, h.of_find_eq ha.symm⟩
  case binary.binary op p p' op' a b =>
    obtain ⟨rfl, ha, hb⟩ := hcan
    exact ⟨a, b, hn, h.1.of_find_eq ha.symm, h.2.of_find_eq hb.symm⟩

/-! ## Nodes that a class lists, or makes superfluous -/

/-- The class lists the node, up to the classes of its children, or it lists a leaf. -/
def Witnessed (g : EGraph) (u : Usage) : Prop :=
  ∃ n ∈ g.nodesAt u.2, n.isLeaf = true ∨ g.canonicalize n = g.canonicalize u.1

theorem witnessed_of_mem (hn : n ∈ g.nodesAt id) : g.Witnessed (n, id) := ⟨n, hn, .inr rfl⟩

theorem Witnessed.of_same (h : g.Witnessed v) (huv : g.Same u v) : g.Witnessed u := by
  obtain ⟨n, hn, hnv⟩ := h
  exact ⟨n, nodesAt_of_find_eq huv.2 ▸ hn, hnv.imp_right fun hcan => hcan.trans huv.1.symm⟩

theorem Witnessed.lt (hs : g.Shape) (h : g.Witnessed u) : u.2 < g.size := by
  obtain ⟨n, hn, -⟩ := h
  exact lt_of_mem_nodesAt hs hn

/-- A leaf that is witnessed is a sign of a leaf. -/
theorem Witnessed.exists_leaf (h : g.Witnessed u) (hu : u.1.isLeaf = true) :
    ∃ n ∈ g.nodesAt u.2, n.isLeaf = true := by
  obtain ⟨n, hn, hleaf | hcan⟩ := h
  · exact ⟨n, hn, hleaf⟩
  · exact ⟨n, hn, by rw [isLeaf_of_canonicalize_eq hcan, hu]⟩

/-- A class represents a tree no larger than that of a node it witnesses. -/
theorem Witnessed.represents {q : Node (Tree × ClassId)} (hu : g.Witnessed (q.map Prod.snd, id))
    (h : ∀ p ∈ q.children, g.Represents p.1 p.2) :
    ∃ t, g.Represents t id ∧ t.size ≤ (Tree.ofNode (q.map Prod.fst)).size := by
  obtain ⟨n, hn, hleaf | hcan⟩ := hu
  · cases n with
    | leaf l => exact ⟨.leaf l, hn, Tree.size_pos _⟩
    | unary op a => cases hleaf
    | binary op a b => cases hleaf
  · exact ⟨_, represents_of_canonicalize_eq hn hcan h, Nat.le_refl _⟩

theorem Witnessed.exists_tree (hu : g.Witnessed u)
    (h : ∀ a ∈ u.1.children, ∃ t, g.Represents t a) : ∃ t, g.Represents t u.2 := by
  choose! f hf using h
  have hu' : g.Witnessed ((u.1.map fun a => (f a, a)).map Prod.snd, u.2) := by
    rwa [Node.map_snd_pair]
  obtain ⟨t, ht, -⟩ := hu'.represents (Node.forall_mem_children_map.2 hf)
  exact ⟨t, ht⟩

/-! ## Growing graphs -/

/-- Equal ids stay equal, and nodes that were listed are witnessed. -/
structure Grows (g g' : EGraph) : Prop where
  size_le : g.size ≤ g'.size
  find : ∀ a b, g.find a = g.find b → g'.find a = g'.find b
  nodes : ∀ id n, n ∈ g.nodesAt id → g'.Witnessed (n, id)

theorem Grows.witnessed (h : Grows g g') (hu : g.Witnessed u) : g'.Witnessed u := by
  obtain ⟨n, hn, hnu⟩ := hu
  obtain ⟨m, hm, hmn⟩ := h.nodes _ n hn
  refine ⟨m, hm, ?_⟩
  rcases hmn with hleaf | hcan
  · exact .inl hleaf
  · rcases hnu with hleaf | hcan'
    · exact .inl (by rw [isLeaf_of_canonicalize_eq hcan, hleaf])
    · exact .inr (hcan.trans (canonicalize_eq_of_find h.find hcan'))

theorem Grows.refl : Grows g g :=
  ⟨Nat.le_refl _, fun _ _ h => h, fun _ _ hn => witnessed_of_mem hn⟩

theorem Grows.trans (h : Grows g g') (h' : Grows g' g'') : Grows g g'' where
  size_le := Nat.le_trans h.size_le h'.size_le
  find := fun a b hab => h'.find a b (h.find a b hab)
  nodes := fun id n hn => h'.witnessed (h.nodes id n hn)

/-- **In a later graph** a class represents a tree no larger than one that it represented. -/
theorem Grows.covers (h : Grows g g') (ht : g.Represents t id) :
    ∃ t', g'.Represents t' id ∧ t'.size ≤ t.size := by
  induction t using Tree.ofNode_induction generalizing id with
  | h m ih =>
    obtain ⟨q, hm, hq, hchild⟩ := represents_iff.1 ht
    obtain rfl := Tree.ofNode_injective hm
    have hex : ∀ p ∈ q.children, ∃ t', g'.Represents t' p.2 ∧ t'.size ≤ p.1.size := fun p hp =>
      Node.forall_mem_children_map.1 ih p hp (hchild p hp)
    choose! f hf using hex
    obtain ⟨t', ht', hle⟩ := Witnessed.represents (q := q.map fun p => (f p, p.2))
      (by rw [Node.map_map]; exact h.nodes id _ hq)
      (Node.forall_mem_children_map.2 fun p hp => (hf p hp).1)
    refine ⟨t', ht', Nat.le_trans hle ?_⟩
    rw [Node.map_map, Tree.size_ofNode, Tree.size_ofNode, Node.map_map, Node.map_map]
    exact CostFunction.monotone_size.map_le fun p hp => (hf p hp).2

/-! ## Grounded graphs -/

/-- The children of listed nodes are classes, and every class represents a tree. -/
structure Grounded (g : EGraph) : Prop where
  shape : g.Shape
  child_lt : ∀ id n, n ∈ g.nodesAt id → ∀ a ∈ n.children, a < g.size
  tree : ∀ id, id < g.size → ∃ t, g.Represents t id

theorem Valid.witnessed (h : Valid I g o) (hu : g.Stands o u) : g.Witnessed u := by
  obtain ⟨i, hi, hui⟩ := hu
  refine Witnessed.of_same (v := (o.node i, i)) ?_ hui
  obtain ⟨c, hc, hlisted⟩ := h.complete.listed i hi
  rcases hlisted with ⟨hdata, -⟩ | ⟨n, hn, hcan⟩
  · obtain ⟨k, hk⟩ := Option.ne_none_iff_exists'.1 hdata
    obtain ⟨-, hleaf, -⟩ := h.settled _ c k not_false hc hk
    exact ⟨_, mem_nodesAt.2 ⟨c, hc, hleaf⟩, .inl rfl⟩
  · exact ⟨n, mem_nodesAt.2 ⟨c, hc, hn⟩, .inr hcan⟩

/-- **In a graph in order** every class represents a tree. -/
theorem Valid.grounded (h : Valid I g o) : g.Grounded where
  shape := h.shape
  child_lt := by
    intro id n hn
    obtain ⟨c, hc, hmem⟩ := mem_nodesAt.1 hn
    exact (h.founded.nodes _ c hc n hmem).child_lt h.shape h.founded
  tree := by
    intro i hi
    induction i using Nat.strong_induction_on with
    | _ i ih =>
      have hstands : g.Stands o (o.node i, i) := ⟨i, hi, same_refl _⟩
      refine (h.witnessed hstands).exists_tree fun a ha => ?_
      have hlt := h.founded.child_lt i hi a ha
      exact ih a hlt (Nat.lt_trans hlt hi)

/-- Between graphs in order, what was listed is witnessed. -/
theorem Extends.grows {new : ENode → Prop} (h : Valid I g o) (h' : Valid I g' o')
    (hext : Extends new g o g' o') : Grows g g' where
  size_le := hext.size_le
  find := hext.find
  nodes := by
    intro id n hn
    obtain ⟨c, hc, hmem⟩ := mem_nodesAt.1 hn
    have hstands : g.Stands o (n, id) :=
      (h.founded.nodes _ c hc n hmem).of_same ⟨rfl, (find_find h.shape id).symm⟩
    exact h'.witnessed (hext.stands hstands)

end EGraph

end EqSat
