import EqSat.EGraph.Rebuild
import EqSat.Proofs.UnionFind.Forest

/-!
# The changes a graph goes through

An e-graph changes by five primitives: a node enters, a class absorbs another, the class
under an id is rewritten, the memo takes an entry, and all classes are tidied.  This module
says for each of them what it does to the representatives, the stored classes and the memo;
nothing after it looks into the arrays.

    g.Shape → (g.enter n).find x = g.find x                                      (find_enter)
    (g.absorb r c k).find x = if g.find x = c.id then r else g.find x            (find_absorb)
-/

namespace EqSat.EGraph

/-- The number of ids given so far. -/
def size (g : EGraph) : Nat := g.links.size

/-- A class is stored under every root and nowhere else, and knows its id. -/
structure Shape (g : EGraph) : Prop where
  forest : g.links.Forest
  size_classes : g.classes.size = g.size
  stored_iff : ∀ id, (∃ c, g.stored? id = some c) ↔ id < g.size ∧ g.find id = id
  id_eq : ∀ id c, g.stored? id = some c → c.id = id

variable {g : EGraph}

theorem shape_empty (a : Analysis) : (empty a).Shape where
  forest := UnionFind.forest_empty
  size_classes := rfl
  stored_iff := by
    intro id
    simp [stored?, empty, size, UnionFind.size, UnionFind.empty]
  id_eq := by
    intro id c h
    simp [stored?, empty] at h

/-! ## Reading a graph -/

theorem find_find (h : g.Shape) (id : ClassId) : g.find (g.find id) = g.find id :=
  UnionFind.root_root h.forest id

theorem find_lt (h : g.Shape) {id : ClassId} (hid : id < g.size) : g.find id < g.size :=
  UnionFind.root_lt h.forest hid

theorem find_lt_iff (h : g.Shape) {id : ClassId} : g.find id < g.size ↔ id < g.size :=
  UnionFind.root_lt_iff h.forest

theorem find_of_size_le {id : ClassId} (hid : g.size ≤ id) : g.find id = id :=
  UnionFind.root_of_size_le hid

theorem lt_of_stored (h : g.Shape) {id : ClassId} {c : EClass} (hc : g.stored? id = some c) :
    id < g.size := ((h.stored_iff id).1 ⟨c, hc⟩).1

theorem find_of_stored (h : g.Shape) {id : ClassId} {c : EClass} (hc : g.stored? id = some c) :
    g.find id = id := ((h.stored_iff id).1 ⟨c, hc⟩).2

theorem classAt_of_stored (h : g.Shape) {id : ClassId} {c : EClass} (hc : g.stored? id = some c) :
    g.classAt? id = some c := by
  rw [classAt?, find_of_stored h hc, hc]

theorem exists_stored (h : g.Shape) {id : ClassId} (hid : id < g.size) :
    ∃ c, g.stored? (g.find id) = some c :=
  (h.stored_iff _).2 ⟨find_lt h hid, find_find h id⟩

theorem exists_classAt (h : g.Shape) {id : ClassId} (hid : id < g.size) :
    ∃ c, g.classAt? id = some c ∧ c.id = g.find id := by
  obtain ⟨c, hc⟩ := exists_stored h hid
  exact ⟨c, hc, h.id_eq _ c hc⟩

theorem constantAt_find (h : g.Shape) (id : ClassId) :
    g.constantAt? (g.find id) = g.constantAt? id := by
  rw [constantAt?, constantAt?, classAt?, classAt?, find_find h]

theorem constantAt_of_find_eq {a b : ClassId} (hab : g.find a = g.find b) :
    g.constantAt? a = g.constantAt? b := by
  rw [constantAt?, constantAt?, classAt?, classAt?, hab]

theorem constantAt_of_stored (h : g.Shape) {id : ClassId} {c : EClass}
    (hc : g.stored? id = some c) : g.constantAt? id = c.data := by
  rw [constantAt?, classAt_of_stored h hc, Option.bind_some]

/-- A node evaluates by what is known of the classes of its children. -/
theorem foldNode_of_canonicalize_eq {m n : ENode} (h : g.Shape)
    (hmn : g.canonicalize m = g.canonicalize n) : g.foldNode m = g.foldNode n := by
  have key : ∀ k : ENode, k.map g.constantAt? = (g.canonicalize k).map g.constantAt? := by
    intro k
    rw [canonicalize, Node.map_map]
    exact Node.map_congr fun c _ => (constantAt_find h c).symm
  rw [foldNode, foldNode, key m, key n, hmn]

theorem canonicalize_canonicalize (h : g.Shape) (n : ENode) :
    g.canonicalize (g.canonicalize n) = g.canonicalize n := by
  rw [canonicalize, canonicalize, Node.map_map]
  exact Node.map_congr fun c _ => find_find h c

theorem mem_children_canonicalize {n : ENode} {a : ClassId} :
    a ∈ (g.canonicalize n).children ↔ ∃ b ∈ n.children, g.find b = a := by
  rw [canonicalize, Node.children_map, List.mem_map]

theorem mem_classList {c : EClass} : c ∈ g.classList ↔ ∃ id, g.stored? id = some c := by
  rw [classList, List.mem_filterMap]
  simp only [id_eq, exists_eq_right, stored?, Option.join_eq_some_iff]
  rw [List.mem_iff_getElem?]
  simp only [Array.getElem?_toList]

/-- What a map of nodes finds after an entry. -/
theorem getElem_insert (m : Std.TreeMap ENode ClassId) (n : ENode) (id : ClassId) (k : ENode) :
    (m.insert n id)[k]? = if k = n then some id else m[k]? := by
  rw [Std.TreeMap.getElem?_insert]
  by_cases hkn : k = n
  · simp [hkn]
  · rw [if_neg hkn, if_neg]
    rw [Std.compare_eq_iff_eq]
    exact fun e => hkn e.symm

/-! ## A class under an id -/

theorem stored_modifyClass (id : ClassId) (f : EClass → EClass) (j : ClassId) :
    (g.modifyClass id f).stored? j = if id = j then (g.stored? j).map f else g.stored? j := by
  unfold stored? modifyClass
  rw [Array.getElem?_modify]
  split
  · cases g.classes[j]? with
    | none => rfl
    | some o => cases o <;> rfl
  · rfl

theorem shape_modifyClass (h : g.Shape) (id : ClassId) {f : EClass → EClass}
    (hf : ∀ c, (f c).id = c.id) : (g.modifyClass id f).Shape where
  forest := h.forest
  size_classes := by
    show (g.classes.modify id _).size = g.size
    rw [Array.size_modify, h.size_classes]
  stored_iff := by
    intro j
    rw [stored_modifyClass]
    refine Iff.trans ?_ (h.stored_iff j)
    split <;> cases g.stored? j <;> simp
  id_eq := by
    intro j c hc
    rw [stored_modifyClass] at hc
    split at hc
    · obtain ⟨d, hd, rfl⟩ := Option.map_eq_some_iff.1 hc
      rw [hf, h.id_eq j d hd]
    · exact h.id_eq j c hc

/-! ## Entering a node -/

theorem join_foldl_addParent (u : Usage) (children : List ClassId) (cs : Array (Option EClass))
    (j : ClassId) :
    (children.foldl (fun cs child => cs.modify child (Option.map (·.addParent u))) cs)[j]?.join =
      cs[j]?.join.map fun c =>
        { c with parents := c.parents ++ Array.replicate (children.count j) u } := by
  induction children generalizing cs with
  | nil =>
    rw [List.foldl_nil]
    rcases cs[j]?.join with _ | c
    · rfl
    · simp
  | cons a children ih =>
    rw [List.foldl_cons, ih, Array.getElem?_modify, List.count_cons]
    by_cases ha : a = j
    · subst ha
      rw [if_pos rfl]
      rcases cs[a]? with _ | _ | c
      · rfl
      · rfl
      · have hpush : c.parents.push u ++ Array.replicate (children.count a) u =
            c.parents ++ Array.replicate (children.count a + 1) u := by
          rw [← Array.toList_inj]
          simp [List.replicate_succ]
        simp [EClass.addParent, hpush]
    · simp [ha]

theorem size_foldl_addParent (u : Usage) (children : List ClassId) (cs : Array (Option EClass)) :
    (children.foldl (fun cs child => cs.modify child (Option.map (·.addParent u))) cs).size =
      cs.size := by
  induction children generalizing cs with
  | nil => rfl
  | cons a children ih => rw [List.foldl_cons, ih, Array.size_modify]

variable {n : ENode}

theorem size_enter : (g.enter n).size = g.size + 1 := UnionFind.size_makeSet g.links

theorem size_lt_enter : g.size < (g.enter n).size := by
  rw [size_enter]
  exact Nat.lt_succ_self _

theorem find_enter (h : g.Shape) (x : ClassId) : (g.enter n).find x = g.find x :=
  UnionFind.root_makeSet h.forest x

/-- The new id is alone in its class. -/
theorem find_enter_size (h : g.Shape) : (g.enter n).find g.size = g.size := by
  rw [find_enter h, find_of_size_le (Nat.le_refl _)]

theorem stored_enter (h : g.Shape) (id : ClassId) :
    (g.enter n).stored? id =
      (if id = g.size then some ⟨g.size, #[n], #[], g.foldNode n⟩ else g.stored? id).map fun c =>
        { c with parents := c.parents ++ Array.replicate (n.children.count id) (n, g.size) } := by
  unfold stored? enter
  dsimp only
  rw [join_foldl_addParent, Array.getElem?_push, h.size_classes]
  split <;> rfl

/-- The parents that classes have after a node has entered: the node is new among them, if it has
children. -/
theorem mem_parents_enter (h : g.Shape) {id : ClassId} {c : EClass} {u : Usage}
    (hc : (g.enter n).stored? id = some c) (hu : u ∈ c.parents) :
    (∃ c', g.stored? id = some c' ∧ u ∈ c'.parents) ∨ (u = (n, g.size) ∧ n.isLeaf = false) := by
  rw [stored_enter h] at hc
  obtain ⟨c', hc', rfl⟩ := Option.map_eq_some_iff.1 hc
  rcases Array.mem_append.1 hu with hu | hu
  · split at hc'
    · cases hc'
      simp at hu
    · exact .inl ⟨c', hc', hu⟩
  · obtain ⟨hcount, rfl⟩ := Array.mem_replicate.1 hu
    refine .inr ⟨rfl, ?_⟩
    cases n with
    | leaf l => exact absurd rfl hcount
    | unary op a => rfl
    | binary op a b => rfl

theorem stored_enter_of_lt (h : g.Shape) {id : ClassId} (hid : id < g.size) :
    (g.enter n).stored? id = (g.stored? id).map fun c =>
      { c with parents := c.parents ++ Array.replicate (n.children.count id) (n, g.size) } := by
  rw [stored_enter h, if_neg (Nat.ne_of_lt hid)]

theorem classAt_enter_of_lt (h : g.Shape) {id : ClassId} (hid : id < g.size) :
    (g.enter n).classAt? id = (g.classAt? id).map fun c => { c with
      parents := c.parents ++ Array.replicate (n.children.count (g.find id)) (n, g.size) } := by
  rw [classAt?, find_enter h, stored_enter_of_lt h (find_lt h hid), classAt?]

/-- The new class: nothing uses it yet. -/
theorem stored_enter_size (h : g.Shape) (hn : ∀ a ∈ n.children, a < g.size) :
    (g.enter n).stored? g.size = some ⟨g.size, #[n], #[], g.foldNode n⟩ := by
  have hcount : n.children.count g.size = 0 :=
    List.count_eq_zero.2 fun hmem => Nat.lt_irrefl _ (hn _ hmem)
  simp [stored_enter h, hcount]

theorem memo_enter (m : ENode) :
    (g.enter n).memo[m]? = if m = n then some g.size else g.memo[m]? :=
  getElem_insert g.memo n g.size m

theorem shape_enter (h : g.Shape) : (g.enter n).Shape where
  forest := UnionFind.forest_makeSet h.forest
  size_classes := by
    show Array.size (List.foldl _ _ _) = _
    rw [size_foldl_addParent, Array.size_push, h.size_classes, size_enter]
  stored_iff := by
    intro id
    rw [stored_enter h, size_enter, find_enter h]
    by_cases hid : id = g.size
    · subst hid
      simp [find_of_size_le]
    · rw [if_neg hid]
      have := h.stored_iff id
      cases hs : g.stored? id with
      | none =>
        rw [hs] at this
        simp only [reduceCtorEq, exists_false, false_iff, Option.map_none, not_and] at this ⊢
        intro hlt
        exact this (Nat.lt_of_le_of_ne (Nat.le_of_lt_succ hlt) hid)
      | some c =>
        have hlt := (this.1 ⟨c, hs⟩)
        simp only [Option.map_some, Option.some.injEq, exists_eq', true_iff]
        exact ⟨Nat.lt_succ_of_lt hlt.1, hlt.2⟩
  id_eq := by
    intro id c hc
    rw [stored_enter h] at hc
    obtain ⟨d, hd, rfl⟩ := Option.map_eq_some_iff.1 hc
    split at hd
    · next hid =>
      cases hd
      exact hid.symm
    · exact h.id_eq id d hd

theorem constantAt_enter_of_lt (h : g.Shape) {id : ClassId} (hid : id < g.size) :
    (g.enter n).constantAt? id = g.constantAt? id := by
  unfold constantAt? classAt?
  rw [find_enter h, stored_enter_of_lt h (find_lt h hid)]
  cases g.stored? (g.find id) <;> rfl

theorem constantAt_enter_size (h : g.Shape) (hn : ∀ a ∈ n.children, a < g.size) :
    (g.enter n).constantAt? g.size = g.foldNode n := by
  rw [constantAt_of_stored (shape_enter h) (stored_enter_size h hn)]

theorem canonicalize_enter (h : g.Shape) (m : ENode) :
    (g.enter n).canonicalize m = g.canonicalize m :=
  Node.map_congr fun a _ => find_enter h a

theorem foldNode_enter (h : g.Shape) {m : ENode} (hm : ∀ a ∈ m.children, a < g.size) :
    (g.enter n).foldNode m = g.foldNode m := by
  have hmap : m.map (g.enter n).constantAt? = m.map g.constantAt? :=
    Node.map_congr fun a ha => constantAt_enter_of_lt h (hm a ha)
  rw [foldNode, foldNode, hmap]
  rfl

/-! ## Absorbing a class -/

theorem mem_pushUsages {us : Array Usage} {stack : List Usage} {u : Usage} :
    u ∈ pushUsages us stack ↔ u ∈ us ∨ u ∈ stack := by
  unfold pushUsages
  rw [← Array.foldl_toList, ← Array.mem_toList_iff]
  induction us.toList generalizing stack with
  | nil => simp
  | cons v vs ih =>
    rw [List.foldl_cons, ih, List.mem_cons, List.mem_cons]
    tauto

theorem length_pushUsages (us : Array Usage) (stack : List Usage) :
    (pushUsages us stack).length = us.size + stack.length := by
  unfold pushUsages
  rw [← Array.foldl_toList, ← Array.length_toList]
  induction us.toList generalizing stack with
  | nil => simp
  | cons v vs ih =>
    rw [List.foldl_cons, ih, List.length_cons, List.length_cons]
    omega

/-- Two different stored classes, which a join can make one. -/
structure Apart (g : EGraph) (x y : EClass) : Prop where
  left : g.stored? x.id = some x
  right : g.stored? y.id = some y
  ne : x.id ≠ y.id

variable {x y : EClass} {data : Option Constant}

theorem Apart.symm (h : g.Apart x y) : g.Apart y x := ⟨h.right, h.left, h.ne.symm⟩

theorem size_absorb : (g.absorb x.id y data).size = g.size := UnionFind.size_link _ _ _

theorem find_absorb (h : g.Shape) (hxy : g.Apart x y) (z : ClassId) :
    (g.absorb x.id y data).find z = if g.find z = y.id then x.id else g.find z :=
  UnionFind.root_link h.forest (find_of_stored h hxy.left) (find_of_stored h hxy.right) hxy.ne
    (lt_of_stored h hxy.left) (lt_of_stored h hxy.right) z

theorem stored_absorb (h : g.Shape) (hxy : g.Apart x y) (id : ClassId) :
    (g.absorb x.id y data).stored? id =
      if id = y.id then none
      else if id = x.id then
        some { x with data := data, nodes := x.nodes ++ y.nodes, parents := x.parents ++ y.parents }
      else g.stored? id := by
  have hy : y.id < g.classes.size := by
    rw [h.size_classes]
    exact lt_of_stored h hxy.right
  have hx := hxy.left
  unfold stored? at hx ⊢
  unfold absorb
  dsimp only
  rw [Array.getElem?_modify, Array.getElem?_setIfInBounds]
  by_cases hid : id = y.id
  · subst hid
    simp [hxy.ne, hy]
  · by_cases hix : id = x.id
    · subst hix
      simp only [hid, if_false, if_true, Ne.symm hid]
      rcases hc : g.classes[x.id]? with _ | _ | c <;> rw [hc] at hx <;> simp at hx
      subst hx
      rfl
    · simp only [hid, hix, Ne.symm hid, Ne.symm hix, if_false]

/-- The parents that classes have after a join are parents that classes had. -/
theorem mem_parents_absorb (h : g.Shape) (hxy : g.Apart x y) {id : ClassId} {c : EClass}
    {u : Usage} (hc : (g.absorb x.id y data).stored? id = some c) (hu : u ∈ c.parents) :
    ∃ j c', g.stored? j = some c' ∧ u ∈ c'.parents := by
  rw [stored_absorb h hxy] at hc
  split at hc
  · cases hc
  · split at hc
    · cases hc
      rcases Array.mem_append.1 hu with hu | hu
      · exact ⟨x.id, x, hxy.left, hu⟩
      · exact ⟨y.id, y, hxy.right, hu⟩
    · exact ⟨id, c, hc, hu⟩

theorem shape_absorb (h : g.Shape) (hxy : g.Apart x y) : (g.absorb x.id y data).Shape where
  forest := UnionFind.forest_link h.forest (find_of_stored h hxy.left)
    (find_of_stored h hxy.right) hxy.ne (lt_of_stored h hxy.left) (lt_of_stored h hxy.right)
  size_classes := by
    show ((g.classes.setIfInBounds _ _).modify _ _).size = _
    rw [Array.size_modify, Array.size_setIfInBounds, h.size_classes, size_absorb]
  stored_iff := by
    intro id
    rw [stored_absorb h hxy, size_absorb, find_absorb h hxy]
    by_cases hid : id = y.id
    · subst hid
      simp [find_of_stored h hxy.right, hxy.ne]
    · by_cases hix : id = x.id
      · subst hix
        simp [hid, find_of_stored h hxy.left, lt_of_stored h hxy.left]
      · simp only [hid, hix, if_false]
        rw [h.stored_iff id]
        constructor
        · rintro ⟨hlt, hf⟩
          exact ⟨hlt, by rw [hf, if_neg hid]⟩
        · rintro ⟨hlt, hf⟩
          refine ⟨hlt, ?_⟩
          split at hf
          · exact absurd hf.symm hix
          · exact hf
  id_eq := by
    intro id c hc
    rw [stored_absorb h hxy] at hc
    split at hc
    · cases hc
    · split at hc
      · next hix =>
        cases hc
        exact hix.symm
      · exact h.id_eq id c hc

/-- The constant of the joined class is known wherever one of the two was. -/
theorem constantAt_absorb (h : g.Shape) (hxy : g.Apart x y) (z : ClassId) :
    (g.absorb x.id y data).constantAt? z =
      if g.find z = x.id ∨ g.find z = y.id then data else g.constantAt? z := by
  unfold constantAt? classAt?
  rw [find_absorb h hxy]
  by_cases hzy : g.find z = y.id
  · simp only [hzy, if_true, or_true]
    rw [stored_absorb h hxy, if_neg hxy.ne, if_pos rfl]
    rfl
  · rw [if_neg hzy, stored_absorb h hxy, if_neg hzy]
    by_cases hzx : g.find z = x.id
    · simp [hzx]
    · simp [hzx, hzy]

/-- A join only makes more ids equal. -/
theorem find_absorb_of_eq (h : g.Shape) (hxy : g.Apart x y) {a b : ClassId}
    (hab : g.find a = g.find b) :
    (g.absorb x.id y data).find a = (g.absorb x.id y data).find b := by
  rw [find_absorb h hxy, find_absorb h hxy, hab]

theorem find_absorb_eq_iff (h : g.Shape) (hxy : g.Apart x y) {a b : ClassId} :
    (g.absorb x.id y data).find a = (g.absorb x.id y data).find b ↔
      g.find a = g.find b ∨ (g.find a = x.id ∧ g.find b = y.id) ∨
        (g.find a = y.id ∧ g.find b = x.id) := by
  rw [find_absorb h hxy, find_absorb h hxy]
  have hne := hxy.ne
  split <;> split <;> grind

end EqSat.EGraph
