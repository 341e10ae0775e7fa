import EqSat.Proofs.Represented

/-!
# Terms that agree

Two terms are compared along their lists, in one table for both: a node gets the number that the
table holds for its head over the numbers of its children, or else the next one.  Every number
stands for a tree, and no two for the same one, so nodes get the same number exactly if they unfold
to the same tree, whichever of the lists they are in.

    numbered_insert      the next number stands for a new tree
    foldl_pushShape      the numbers along a list stand for what the nodes unfold to
    agrees_iff           terms agree if they unfold to the same tree
-/

namespace EqSat

/-- Nodes that agree over references where a function is injective are the same. -/
theorem Node.eq_of_map_eq {α β : Type} {f : α → β} {m n : Node α}
    (hf : ∀ a ∈ m.children, ∀ b ∈ n.children, f a = f b → a = b) (h : m.map f = n.map f) :
    m = n := by
  cases m <;> cases n <;> simp_all [Node.map, Node.children]

namespace Term

variable {table : Shapes} {tree : Nat → Tree} {t u : Term} {m : Node Nat}

/-- The numbers in the table stand for trees, different ones for different trees. -/
structure Numbered (table : Shapes) (tree : Nat → Tree) : Prop where
  lt : ∀ (m : Node Nat) (id : Nat), table[m]? = some id → id < table.size
  child_lt : ∀ (m : Node Nat) (id : Nat), table[m]? = some id → ∀ c ∈ m.children, c < table.size
  step : ∀ (m : Node Nat) (id : Nat), table[m]? = some id → tree id = Tree.ofNode (m.map tree)
  entered : ∀ id, id < table.size → ∃ m : Node Nat, table[m]? = some id
  inj : ∀ a b, a < table.size → b < table.size → tree a = tree b → a = b

theorem numbered_empty (tree : Nat → Tree) : Numbered ∅ tree where
  lt := by simp
  child_lt := by simp
  step := by simp
  entered := by simp
  inj := by simp

/-- The table has grown, and the numbers that it held stand for what they stood for. -/
structure Grown (table : Shapes) (tree : Nat → Tree) (table' : Shapes) (tree' : Nat → Tree) :
    Prop where
  size_le : table.size ≤ table'.size
  old : ∀ id, id < table.size → tree' id = tree id

theorem Grown.refl (table : Shapes) (tree : Nat → Tree) : Grown table tree table tree :=
  ⟨Nat.le_refl _, fun _ _ => rfl⟩

theorem Grown.trans {table' table'' : Shapes} {tree' tree'' : Nat → Tree}
    (h : Grown table tree table' tree') (h' : Grown table' tree' table'' tree'') :
    Grown table tree table'' tree'' :=
  ⟨Nat.le_trans h.size_le h'.size_le,
    fun id hid => (h'.old id (Nat.lt_of_lt_of_le hid h.size_le)).trans (h.old id hid)⟩

/-- What the next number is to stand for. -/
def treeOfNext (table : Shapes) (tree : Nat → Tree) (m : Node Nat) : Nat → Tree :=
  Function.update tree table.size (Tree.ofNode (m.map tree))

theorem treeOfNext_of_lt {id : Nat} (h : id < table.size) :
    treeOfNext table tree m id = tree id := Function.update_of_ne (Nat.ne_of_lt h) _ _

theorem treeOfNext_size : treeOfNext table tree m table.size = Tree.ofNode (m.map tree) :=
  Function.update_self _ _ _

theorem size_insert_of_new (hnew : table[m]? = none) (id : Nat) :
    (table.insert m id).size = table.size + 1 := by
  have hnot : m ∉ table := by
    rw [Std.TreeMap.mem_iff_isSome_getElem?, hnew]
    exact Bool.false_ne_true
  simp [Std.TreeMap.size_insert, hnot]

theorem getElem_insert_cases {n : Node Nat} {id : Nat}
    (h : (table.insert m table.size)[n]? = some id) :
    (n = m ∧ id = table.size) ∨ table[n]? = some id := by
  rw [Std.TreeMap.getElem?_insert] at h
  split at h
  · next heq => exact .inl ⟨(Std.compare_eq_iff_eq.1 heq).symm, (Option.some.inj h).symm⟩
  · exact .inr h

/-- The tree of a head that is new to the table is new as well. -/
theorem Numbered.tree_ne (h : Numbered table tree) (hnew : table[m]? = none)
    (hm : ∀ c ∈ m.children, c < table.size) {id : Nat} (hid : id < table.size) :
    tree id ≠ Tree.ofNode (m.map tree) := by
  intro heq
  obtain ⟨n, hn⟩ := h.entered id hid
  rw [h.step n id hn] at heq
  have hmap : n.map tree = m.map tree := Tree.ofNode_injective heq
  have hnm : n = m := Node.eq_of_map_eq (fun a ha b hb hab =>
    h.inj a b (h.child_lt n id hn a ha) (hm b hb) hab) hmap
  rw [hnm, hnew] at hn
  cases hn

/-- **The next number** stands for the tree of the head that it is entered for. -/
theorem numbered_insert (h : Numbered table tree) (hnew : table[m]? = none)
    (hm : ∀ c ∈ m.children, c < table.size) :
    Numbered (table.insert m table.size) (treeOfNext table tree m) := by
  have hsize := size_insert_of_new hnew table.size
  have hmap : ∀ n : Node Nat, (∀ c ∈ n.children, c < table.size) →
      n.map (treeOfNext table tree m) = n.map tree := fun n hn =>
    Node.map_congr fun c hc => treeOfNext_of_lt (hn c hc)
  constructor
  · intro n id hn
    rw [hsize]
    rcases getElem_insert_cases hn with ⟨-, rfl⟩ | hn
    · exact Nat.lt_succ_self _
    · exact Nat.lt_succ_of_lt (h.lt n id hn)
  · intro n id hn c hc
    rw [hsize]
    rcases getElem_insert_cases hn with ⟨rfl, -⟩ | hn
    · exact Nat.lt_succ_of_lt (hm c hc)
    · exact Nat.lt_succ_of_lt (h.child_lt n id hn c hc)
  · intro n id hn
    rcases getElem_insert_cases hn with ⟨rfl, rfl⟩ | hn
    · rw [treeOfNext_size, hmap n hm]
    · rw [treeOfNext_of_lt (h.lt n id hn), hmap n (h.child_lt n id hn), h.step n id hn]
  · intro id hid
    rw [hsize] at hid
    rcases Nat.lt_or_eq_of_le (Nat.le_of_lt_succ hid) with hlt | rfl
    · obtain ⟨n, hn⟩ := h.entered id hlt
      refine ⟨n, ?_⟩
      have hne : m ≠ n := by
        rintro rfl
        rw [hnew] at hn
        cases hn
      rw [Std.TreeMap.getElem?_insert, if_neg (by rwa [Std.compare_eq_iff_eq]), hn]
    · exact ⟨m, Std.TreeMap.getElem?_insert_self⟩
  · intro a b ha hb hab
    rw [hsize] at ha hb
    rcases Nat.lt_or_eq_of_le (Nat.le_of_lt_succ ha) with ha | rfl <;>
      rcases Nat.lt_or_eq_of_le (Nat.le_of_lt_succ hb) with hb | rfl
    · rw [treeOfNext_of_lt ha, treeOfNext_of_lt hb] at hab
      exact h.inj a b ha hb hab
    · rw [treeOfNext_of_lt ha, treeOfNext_size] at hab
      exact absurd hab (h.tree_ne hnew hm ha)
    · rw [treeOfNext_of_lt hb, treeOfNext_size] at hab
      exact absurd hab.symm (h.tree_ne hnew hm hb)
    · rfl

/-! ## Along a list -/

/-- One step of `shapes`. -/
def pushShape : Array Nat × Shapes → Node Nat → Array Nat × Shapes
  | (ids, table), n => match n.mapM (ids[·]?) with
    | none => (ids, table)
    | some m => match table[m]? with
      | some id => (ids.push id, table)
      | none => (ids.push table.size, table.insert m table.size)

theorem shapes_eq (table : Shapes) (t : Term) :
    t.shapes table = t.nodes.toList.foldl pushShape (#[], table) := by
  rw [Array.foldl_toList]
  rfl

/-- The numbers of the first nodes stand for what the nodes unfold to. -/
def NumbersOf (t : Term) (ids : Array Nat) (table : Shapes) (tree : Nat → Tree) : Prop :=
  ∀ (i id : Nat), ids[i]? = some id → id < table.size ∧ tree id = t.treeAt i

theorem NumbersOf.push {ids : Array Nat} (h : NumbersOf t ids table tree) {id : Nat}
    (hlt : id < table.size) (htree : tree id = t.treeAt ids.size) :
    NumbersOf t (ids.push id) table tree := by
  intro i a ha
  rw [Array.getElem?_push] at ha
  split at ha
  · next hi =>
    cases ha
    rw [hi]
    exact ⟨hlt, htree⟩
  · exact h i a ha

theorem NumbersOf.grown {ids : Array Nat} (h : NumbersOf t ids table tree) {table' : Shapes}
    {tree' : Nat → Tree} (hgrown : Grown table tree table' tree') :
    NumbersOf t ids table' tree' := by
  intro i a ha
  obtain ⟨hlt, htree⟩ := h i a ha
  exact ⟨Nat.lt_of_lt_of_le hlt hgrown.size_le, (hgrown.old a hlt).trans htree⟩

/-- One node gets a number that stands for what it unfolds to. -/
theorem pushShape_spec {ids : Array Nat} {n : Node Nat} (h : Numbered table tree)
    (hids : NumbersOf t ids table tree) (hn : t.nodes[ids.size]? = some n) :
    ∃ id table' tree', pushShape (ids, table) n = (ids.push id, table') ∧ Numbered table' tree' ∧
      Grown table tree table' tree' ∧ NumbersOf t (ids.push id) table' tree' := by
  have hchild : ∀ c ∈ n.children, ids.getD c 0 < table.size ∧ tree (ids.getD c 0) = t.treeAt c := by
    intro c hc
    have hlt : c < ids.size := lt_of_mem_children hn hc
    refine hids c _ ?_
    rw [Array.getD_eq_getD_getElem?, Array.getElem?_eq_getElem hlt, Option.getD_some]
  have hmapM : n.mapM (ids[·]?) = some (n.map fun c => ids.getD c 0) :=
    Node.mapM_getElem 0 fun c hc => lt_of_mem_children hn hc
  have htree : Tree.ofNode ((n.map fun c => ids.getD c 0).map tree) = t.treeAt ids.size := by
    rw [t.steps_treeAt ids.size n hn, Node.map_map]
    exact congrArg _ (Node.map_congr fun c hc => (hchild c hc).2)
  have hlt : ∀ c ∈ (n.map fun c => ids.getD c 0).children, c < table.size :=
    Node.forall_mem_children_map.2 fun c hc => (hchild c hc).1
  rw [pushShape, hmapM]
  generalize n.map (fun c => ids.getD c 0) = m at htree hlt
  dsimp only
  cases hm : table[m]? with
  | some id =>
    refine ⟨id, table, tree, rfl, h, .refl table tree, hids.push (h.lt m id hm) ?_⟩
    rw [h.step m id hm, htree]
  | none =>
    have hsize := size_insert_of_new hm table.size
    have hgrown : Grown table tree (table.insert m table.size) (treeOfNext table tree m) :=
      ⟨by omega, fun id hid => treeOfNext_of_lt hid⟩
    refine ⟨table.size, _, _, rfl, numbered_insert h hm hlt, hgrown, (hids.grown hgrown).push ?_ ?_⟩
    · omega
    · rw [treeOfNext_size, htree]

/-- The numbers along a list, when the nodes before `rest` have theirs. -/
theorem foldl_pushShape (rest : List (Node Nat)) {ids : Array Nat} (h : Numbered table tree)
    (hids : NumbersOf t ids table tree) (hrest : ∀ i : Nat, rest[i]? = t.nodes[ids.size + i]?) :
    ∃ ids' table' tree', rest.foldl pushShape (ids, table) = (ids', table') ∧
      ids'.size = ids.size + rest.length ∧ Numbered table' tree' ∧
      Grown table tree table' tree' ∧ NumbersOf t ids' table' tree' := by
  induction rest generalizing ids table tree with
  | nil => exact ⟨ids, table, tree, rfl, rfl, h, .refl table tree, hids⟩
  | cons n rest ih =>
    obtain ⟨id, table₁, tree₁, hstep, h₁, hgrown₁, hids₁⟩ :=
      pushShape_spec h hids (hrest 0).symm
    have hrest₁ : ∀ i : Nat, rest[i]? = t.nodes[(ids.push id).size + i]? := by
      intro i
      rw [Array.size_push, Nat.add_assoc, Nat.add_comm 1 i, ← hrest (i + 1)]
      rfl
    obtain ⟨ids', table', tree', hfold, hsize, h', hgrown', hids'⟩ := ih h₁ hids₁ hrest₁
    refine ⟨ids', table', tree', ?_, ?_, h', hgrown₁.trans hgrown', hids'⟩
    · rw [List.foldl_cons, hstep, hfold]
    · rw [hsize, Array.size_push, List.length_cons]
      omega

/-- **The numbers of a term's nodes** stand for what the nodes unfold to. -/
theorem shapes_spec (h : Numbered table tree) (t : Term) :
    ∃ ids table' tree', t.shapes table = (ids, table') ∧ ids.size = t.size ∧
      Numbered table' tree' ∧ Grown table tree table' tree' ∧ NumbersOf t ids table' tree' := by
  have hids : NumbersOf t #[] table tree := fun i id hid => by simp at hid
  obtain ⟨ids, table', tree', hfold, hsize, hspec⟩ :=
    foldl_pushShape t.nodes.toList h hids fun i => by simp
  refine ⟨ids, table', tree', by rw [shapes_eq, hfold], ?_, hspec⟩
  simpa [size] using hsize

/-- The number of the last node stands for what the term unfolds to. -/
theorem NumbersOf.back {ids : Array Nat} (h : NumbersOf t ids table tree)
    (hsize : ids.size = t.size) :
    (∀ id ∈ ids.back?, id < table.size) ∧ ids.back?.map tree = t.tree? := by
  rw [Array.back?_eq_getElem?]
  cases hempty : t.isEmpty with
  | true =>
    have hzero : ids.size = 0 := hsize.trans (eq_of_beq hempty)
    have hnone : ids[ids.size - 1]? = none := by simp [hzero]
    rw [tree?_eq_none hempty, hnone]
    exact ⟨by simp, rfl⟩
  | false =>
    have hlt : ids.size - 1 < ids.size := by
      rw [hsize]
      exact size_sub_one_lt hempty
    have hlast := Array.getElem?_eq_getElem hlt
    obtain ⟨hid, htree⟩ := h _ _ hlast
    rw [hlast, Option.map_some, htree, tree?_eq t hempty]
    refine ⟨fun id hmem => ?_, by rw [hsize]⟩
    cases hmem
    exact hid

/-- One table numbers the nodes of both terms. -/
theorem exists_numbers (t u : Term) : ∃ tree,
    (t.shapes ∅).1.size = t.size ∧ (u.shapes (t.shapes ∅).2).1.size = u.size ∧
      Numbered (u.shapes (t.shapes ∅).2).2 tree ∧
      NumbersOf t (t.shapes ∅).1 (u.shapes (t.shapes ∅).2).2 tree ∧
      NumbersOf u (u.shapes (t.shapes ∅).2).1 (u.shapes (t.shapes ∅).2).2 tree := by
  obtain ⟨ids, table, tree, hshapes, hsize, h, -, hids⟩ :=
    shapes_spec (numbered_empty fun _ => default) t
  obtain ⟨ids', table', tree', hshapes', hsize', h', hgrown, hids'⟩ := shapes_spec h u
  rw [hshapes]
  dsimp only
  rw [hshapes']
  exact ⟨tree', hsize, hsize', h', hids.grown hgrown, hids'⟩

/-- **Terms agree** if both unfold to the same tree, or both have no nodes. -/
theorem agrees_iff (t u : Term) : t.agrees u = true ↔ t.tree? = u.tree? := by
  obtain ⟨tree, hsize, hsize', h, hids, hids'⟩ := exists_numbers t u
  obtain ⟨hlt, hback⟩ := hids.back hsize
  obtain ⟨hlt', hback'⟩ := hids'.back hsize'
  have hagrees : t.agrees u =
      ((t.shapes ∅).1.back? == (u.shapes (t.shapes ∅).2).1.back?) := rfl
  rw [hagrees, beq_iff_eq, ← hback, ← hback']
  refine ⟨congrArg _, fun heq => ?_⟩
  cases ha : (t.shapes ∅).1.back? with
  | none =>
    rw [ha] at heq
    exact (Option.map_eq_none_iff.1 heq.symm).symm
  | some a =>
    rw [ha] at heq
    obtain ⟨b, hb, hab⟩ := Option.map_eq_some_iff.1 heq.symm
    rw [hb, h.inj b a (hlt' b hb) (hlt a ha) hab]

end Term
end EqSat
