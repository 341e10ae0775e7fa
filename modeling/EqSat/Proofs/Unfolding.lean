import EqSat.Proofs.Shapes

/-!
# Equality of terms without unfolding them

A node of a term unfolds to a tree, which may have exponentially more nodes than the term.  Terms
are compared by numbers, one a node, from one table for both.  Equal numbers stand for equal trees,
whatever is shared, in whatever order the nodes stand and whatever else is in the lists.  The table
never holds more entries than the two lists have nodes.

    Term.unfolds_iff            every node unfolds to one tree
    Term.shapes_eq_iff          equal numbers stand for equal trees
    Term.size_table_le          one entry a node at most
    Term.agrees_iff_unfold      equality of terms
-/

namespace EqSat.Term

variable {t u : Term} {i j : Nat} {x : Tree}

/-! ## Unfolding -/

/-- The node at a position unfolds to a tree. -/
inductive Unfolds (t : Term) : Nat → Tree → Prop
  | leaf {i : Nat} {l : Leaf} : t.nodes[i]? = some (.leaf l) → Unfolds t i (.leaf l)
  | unary {i a : Nat} {op : UnaryOp} {x : Tree} : t.nodes[i]? = some (.unary op a) →
      Unfolds t a x → Unfolds t i (.unary op x)
  | binary {i a b : Nat} {op : BinaryOp} {x y : Tree} : t.nodes[i]? = some (.binary op a b) →
      Unfolds t a x → Unfolds t b y → Unfolds t i (.binary op x y)

theorem unfolds_treeAt (hi : i < t.size) : t.Unfolds i (t.treeAt i) := by
  induction i using Nat.strong_induction_on with
  | _ i ih =>
    obtain ⟨n, hn⟩ := exists_node hi
    have hchild : ∀ c ∈ n.children, t.Unfolds c (t.treeAt c) := fun c hc =>
      have hlt := lt_of_mem_children hn hc
      ih c hlt (Nat.lt_trans hlt hi)
    rw [t.steps_treeAt i n hn]
    cases n with
    | leaf l => exact .leaf hn
    | unary op a => exact .unary hn (hchild a (by simp [Node.children]))
    | binary op a b =>
      exact .binary hn (hchild a (by simp [Node.children])) (hchild b (by simp [Node.children]))

theorem Unfolds.treeAt_eq (h : t.Unfolds i x) : t.treeAt i = x := by
  induction h with
  | leaf hn => exact t.steps_treeAt _ _ hn
  | unary hn _ ih =>
    rw [t.steps_treeAt _ _ hn, ← ih]
    rfl
  | binary hn _ _ ihx ihy =>
    rw [t.steps_treeAt _ _ hn, ← ihx, ← ihy]
    rfl

/-- Every node unfolds to one tree. -/
theorem unfolds_iff (hi : i < t.size) : t.Unfolds i x ↔ t.treeAt i = x :=
  ⟨Unfolds.treeAt_eq, fun h => h ▸ unfolds_treeAt hi⟩

theorem exists_unfolds_iff (hi : i < t.size) (hj : j < u.size) :
    (∃ x, t.Unfolds i x ∧ u.Unfolds j x) ↔ t.treeAt i = u.treeAt j := by
  simp only [unfolds_iff hi, unfolds_iff hj, exists_eq_left']
  exact eq_comm

/-! ## Numbers -/

/-- The table gets one entry a node at most. -/
theorem size_shapes_le (table : Shapes) (t : Term) :
    (t.shapes table).2.size ≤ table.size + t.size := by
  have hstep : ∀ (s : Array Nat × Shapes) (n : Node Nat),
      (pushShape s n).2.size ≤ s.2.size + 1 := by
    rintro ⟨ids, table⟩ n
    rw [pushShape]
    split
    · exact Nat.le_succ _
    · split
      · exact Nat.le_succ _
      · exact Std.TreeMap.size_insert_le
  have hfold : ∀ (ns : List (Node Nat)) (s : Array Nat × Shapes),
      (ns.foldl pushShape s).2.size ≤ s.2.size + ns.length := by
    intro ns
    induction ns with
    | nil => exact fun s => Nat.le_refl _
    | cons n ns ih =>
      intro s
      have hrest := ih (pushShape s n)
      have hhead := hstep s n
      rw [List.foldl_cons, List.length_cons]
      omega
  rw [shapes_eq]
  exact hfold t.nodes.toList (#[], table)

/-- **Equal numbers**, from one table for both terms, stand for equal trees. -/
theorem shapes_eq_iff (hi : i < t.size) (hj : j < u.size) :
    (t.shapes ∅).1[i]? = (u.shapes (t.shapes ∅).2).1[j]? ↔ t.treeAt i = u.treeAt j := by
  obtain ⟨tree, hsize, hsize', h, hids, hids'⟩ := exists_numbers t u
  rw [← hsize] at hi
  rw [← hsize'] at hj
  have hid := Array.getElem?_eq_getElem hi
  have hid' := Array.getElem?_eq_getElem hj
  obtain ⟨hlt, htree⟩ := hids i _ hid
  obtain ⟨hlt', htree'⟩ := hids' j _ hid'
  rw [hid, hid', Option.some.injEq, ← htree, ← htree']
  exact ⟨congrArg tree, h.inj _ _ hlt hlt'⟩

/-- One table for both terms gets one entry a node at most. -/
theorem size_table_le (t u : Term) : (u.shapes (t.shapes ∅).2).2.size ≤ t.size + u.size := by
  have hfirst := size_shapes_le ∅ t
  have hsecond := size_shapes_le (t.shapes ∅).2 u
  rw [Std.TreeMap.size_emptyc] at hfirst
  omega

theorem tree?_eq_tree?_iff : t.tree? = u.tree? ↔
    t.isEmpty = true ∧ u.isEmpty = true ∨ t.isEmpty = false ∧ u.isEmpty = false ∧
      t.treeAt (t.size - 1) = u.treeAt (u.size - 1) := by
  cases ht : t.isEmpty <;> cases hu : u.isEmpty
  · simp [tree?_eq t ht, tree?_eq u hu]
  · simp [tree?_eq t ht, tree?_eq_none hu]
  · simp [tree?_eq u hu, tree?_eq_none ht]
  · simp [tree?_eq_none ht, tree?_eq_none hu]

/-- **Terms are equal** if they have no nodes, or if their roots unfold to the same tree.  The
numbers of any two nodes tell whether these unfold to the same tree.  To number both terms takes as
many numbers as they have nodes, and no more entries of the table. -/
theorem agrees_iff_unfold (t u : Term) :
    (t.agrees u = true ↔ t.isEmpty = true ∧ u.isEmpty = true ∨
      t.isEmpty = false ∧ u.isEmpty = false ∧
        ∃ x, t.Unfolds (t.size - 1) x ∧ u.Unfolds (u.size - 1) x) ∧
    (∀ (i : Fin t.size) (j : Fin u.size),
      (t.shapes ∅).1[i.val]? = (u.shapes (t.shapes ∅).2).1[j.val]? ↔
        ∃ x, t.Unfolds i x ∧ u.Unfolds j x) ∧
    (t.shapes ∅).1.size = t.size ∧ (u.shapes (t.shapes ∅).2).1.size = u.size ∧
    (u.shapes (t.shapes ∅).2).2.size ≤ t.size + u.size := by
  obtain ⟨tree, hsize, hsize', -⟩ := exists_numbers t u
  refine ⟨?_, fun i j => ?_, hsize, hsize', size_table_le t u⟩
  · rw [agrees_iff, tree?_eq_tree?_iff]
    refine or_congr_right (and_congr_right fun ht => and_congr_right fun hu => ?_)
    exact (exists_unfolds_iff (size_sub_one_lt ht) (size_sub_one_lt hu)).symm
  · rw [shapes_eq_iff i.isLt j.isLt, exists_unfolds_iff i.isLt j.isLt]

example : agrees ⟨#[.leaf (.var "x"), .leaf (.var "aside"), .binary .add 0 0], by decide⟩
    (ofTree (.binary .add (.leaf (.var "x")) (.leaf (.var "x")))) = true := by decide +kernel

example : (ofTree (.leaf (.const (.bool true)))).agrees (ofTree (.leaf (.const (.int 1)))) =
    false := by decide +kernel

end EqSat.Term
