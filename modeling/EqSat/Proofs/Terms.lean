import EqSat.Proofs.EGraph.Invariant

/-!
# Values along a term

Children stand before their parents, so values that follow from those of the children are
determined.  What a node unfolds to is such a value.  A tree that is laid out in full unfolds to
itself, and its nodes to the trees below its root.

    t.Steps f v → (t.values f)[i]? = some (v i)              (getElem_values)
    t.Steps f v → t.Steps f w → v i = w i                    (eq_of_steps)
    (ofTree u).tree? = some u                                (tree?_ofTree)
-/

namespace EqSat

namespace Node

variable {α β : Type}

theorem mapM_eq_some_iff {f : α → Option β} {n : Node α} {m : Node β} :
    n.mapM f = some m ↔ n.map f = m.map some := by
  cases n with
  | leaf l =>
    rw [mapM, Option.pure_def, Option.some.injEq]
    cases m <;> simp [map]
  | unary op a =>
    show (f a).bind (fun x => some (unary op x)) = some m ↔ _
    cases m <;> cases ha : f a <;> simp [map, ha]
  | binary op a b =>
    show (f a).bind (fun x => (f b).bind fun y => some (binary op x y)) = some m ↔ _
    cases m <;> cases ha : f a <;> cases hb : f b <;> simp [map, ha, hb]

/-- A function that gives something at every child maps the node. -/
theorem mapM_eq_some_map {f : α → Option β} {g : α → β} {n : Node α}
    (h : ∀ a ∈ n.children, f a = some (g a)) : n.mapM f = some (n.map g) := by
  rw [mapM_eq_some_iff, map_map]
  exact map_congr h

theorem mapM_getElem {n : Node Nat} {vs : Array β} (d : β) (h : ∀ c ∈ n.children, c < vs.size) :
    n.mapM (vs[·]?) = some (n.map fun c => vs.getD c d) := by
  refine mapM_eq_some_map fun c hc => ?_
  have hlt := h c hc
  simp [Array.getD_eq_getD_getElem?, hlt]

end Node

/-! ## References into a growing array -/

section
variable {β : Type} {vs : Array β}

theorem getD_push_of_lt {i : Nat} (hi : i < vs.size) (v d : β) :
    (vs.push v).getD i d = vs.getD i d := by
  simp [Array.getD_eq_getD_getElem?, Array.getElem?_push_lt hi, hi]

theorem getD_push_size (vs : Array β) (v d : β) : (vs.push v).getD vs.size d = v := by
  simp [Array.getD_eq_getD_getElem?]

/-- References stay what they were when the next value is known. -/
theorem map_getD_push {n : Node Nat} (hn : ∀ i ∈ n.children, i < vs.size) (v d : β) :
    n.map (fun i => (vs.push v).getD i d) = n.map fun i => vs.getD i d :=
  Node.map_congr fun i hi => getD_push_of_lt (hn i hi) v d

end

/-- The tree and all trees below its root. -/
def Tree.parts : Tree → List Tree
  | .leaf l => [.leaf l]
  | .unary op t => .unary op t :: t.parts
  | .binary op t u => .binary op t u :: (t.parts ++ u.parts)

namespace Term

variable {β : Type}

theorem eq_of_nodes {t u : Term} (h : t.nodes = u.nodes) : t = u := by
  cases t
  cases u
  cases h
  rfl

/-- Every node's value follows from the values of its children. -/
def Steps (f : Node β → β) (t : Term) (v : Nat → β) : Prop :=
  ∀ (i : Nat) (n : Node Nat), t.nodes[i]? = some n → v i = f (n.map v)

theorem lt_of_mem_children {t : Term} {i : Nat} {n : Node Nat} (hn : t.nodes[i]? = some n)
    {c : Nat} (hc : c ∈ n.children) : c < i := by
  obtain ⟨hi, rfl⟩ := Array.getElem?_eq_some_iff.1 hn
  exact t.ordered i hi c hc

theorem lt_of_mem_children_toList {t : Term} (i : Nat) (n : Node Nat)
    (hn : t.nodes.toList[i]? = some n) : ∀ c ∈ n.children, c < i := by
  intro c hc
  rw [Array.getElem?_toList] at hn
  exact lt_of_mem_children hn hc

theorem exists_node {t : Term} {i : Nat} (hi : i < t.size) : ∃ n, t.nodes[i]? = some n :=
  ⟨_, Array.getElem?_eq_getElem hi⟩

/-- Two values of all nodes that follow the same steps agree. -/
theorem eq_of_steps {γ : Type} {f : Node γ → γ} {t : Term} {v w : Nat → γ} (hv : t.Steps f v)
    (hw : t.Steps f w) (i : Nat) (hi : i < t.size) : v i = w i := by
  induction i using Nat.strong_induction_on with
  | _ i ih =>
    obtain ⟨n, hn⟩ := exists_node hi
    rw [hv i n hn, hw i n hn]
    refine congrArg f (Node.map_congr fun c hc => ?_)
    have hlt := lt_of_mem_children hn hc
    exact ih c hlt (Nat.lt_trans hlt hi)

/-- One step of `values`. -/
def pushValue (f : Node β → β) (vs : Array β) (n : Node Nat) : Array β :=
  match n.mapM (vs[·]?) with
  | some m => vs.push (f m)
  | none => vs

/-- The values of the first `k` nodes, when the list goes on with `rest`. -/
theorem foldl_pushValue [Inhabited β] {f : Node β → β} (rest : List (Node Nat)) (vs : Array β)
    (h : ∀ (i : Nat) (n : Node Nat), rest[i]? = some n → ∀ c ∈ n.children, c < vs.size + i) :
    let ws := rest.foldl (pushValue f) vs
    ws.size = vs.size + rest.length ∧ (∀ i, i < vs.size → ws[i]? = vs[i]?) ∧
      ∀ (i : Nat) (n : Node Nat), rest[i]? = some n →
        ws[vs.size + i]? = some (f (n.map fun c => ws.getD c default)) := by
  induction rest generalizing vs with
  | nil => simp
  | cons n rest ih =>
    have hstep : pushValue f vs n = vs.push (f (n.map fun c => vs.getD c default)) := by
      rw [pushValue, Node.mapM_getElem default (h 0 n rfl)]
    obtain ⟨hsize, hold, hnew⟩ := ih (vs.push (f (n.map fun c => vs.getD c default))) (by
      intro i m hm c hc
      have := h (i + 1) m hm c hc
      rw [Array.size_push]
      omega)
    rw [← hstep] at hsize hold hnew
    rw [List.foldl_cons]
    have hsize₁ : (pushValue f vs n).size = vs.size + 1 := by rw [hstep, Array.size_push]
    have hkeep : ∀ i, i < vs.size → (rest.foldl (pushValue f) (pushValue f vs n))[i]? = vs[i]? := by
      intro i hi
      rw [hold i (by omega), hstep, Array.getElem?_push_lt hi, Array.getElem?_eq_getElem hi]
    refine ⟨by rw [hsize, hsize₁, List.length_cons]; omega, hkeep, ?_⟩
    intro i m hm
    cases i with
    | zero =>
      cases hm
      rw [Nat.add_zero, hold _ (by omega), hstep, Array.getElem?_push_size]
      refine congrArg some (congrArg f (Node.map_congr fun c hc => ?_))
      have hlt := h 0 n rfl c hc
      rw [Array.getD_eq_getD_getElem?, Array.getD_eq_getD_getElem?, ← hstep, hkeep c hlt]
    | succ i =>
      have := hnew i m hm
      rw [hsize₁] at this
      rw [← this]
      congr 1
      omega

/-- **The values along a term** follow the steps, one a node. -/
theorem steps_values [Inhabited β] (f : Node β → β) (t : Term) :
    (t.values f).size = t.size ∧ t.Steps f fun i => (t.values f).getD i default := by
  obtain ⟨hsize, -, hnew⟩ := foldl_pushValue (f := f) t.nodes.toList #[] (by
    intro i n hn c hc
    rw [Array.getElem?_toList] at hn
    have := lt_of_mem_children hn hc
    simpa using this)
  have heq : t.values f = t.nodes.toList.foldl (pushValue f) #[] := by
    rw [Array.foldl_toList]
    rfl
  rw [← heq] at hsize hnew
  refine ⟨by simpa [size] using hsize, fun i n hn => ?_⟩
  have h := hnew i n (by rwa [Array.getElem?_toList])
  simp only [List.size_toArray, List.length_nil, Nat.zero_add] at h
  dsimp only
  rw [Array.getD_eq_getD_getElem?, h, Option.getD_some]

/-- Values that follow the steps are those along the term. -/
theorem getElem_values [Inhabited β] {f : Node β → β} {t : Term} {v : Nat → β} (hv : t.Steps f v)
    {i : Nat} (hi : i < t.size) : (t.values f)[i]? = some (v i) := by
  obtain ⟨hsize, hsteps⟩ := steps_values f t
  rw [← eq_of_steps hsteps hv i hi, Array.getD_eq_getD_getElem?]
  simp [hsize, hi]

/-- The tree that the node at `i` unfolds to. -/
def treeAt (t : Term) (i : Nat) : Tree := (t.values Tree.ofNode).getD i default

theorem steps_treeAt (t : Term) : t.Steps Tree.ofNode t.treeAt := (steps_values Tree.ofNode t).2

theorem lt_of_treeAt? {t : Term} {i : Nat} {u : Tree} (h : t.treeAt? i = some u) :
    i < t.size ∧ t.treeAt i = u := by
  have hi : i < t.size := by
    rw [← (steps_values Tree.ofNode t).1]
    exact (Array.getElem?_eq_some_iff.1 h).1
  rw [treeAt?, getElem_values t.steps_treeAt hi] at h
  exact ⟨hi, Option.some.inj h⟩

theorem size_sub_one_lt {t : Term} (h : t.isEmpty = false) : t.size - 1 < t.size := by
  rw [isEmpty, beq_eq_false_iff_ne] at h
  omega

/-- A term that has nodes unfolds to the tree of its last one. -/
theorem tree?_eq (t : Term) (h : t.isEmpty = false) : t.tree? = some (t.treeAt (t.size - 1)) := by
  rw [tree?, root?, h, if_neg Bool.false_ne_true, Option.bind_some, treeAt?]
  exact getElem_values t.steps_treeAt (size_sub_one_lt h)

theorem tree?_eq_none {t : Term} (h : t.isEmpty = true) : t.tree? = none := by
  rw [tree?, root?, if_pos h]
  rfl

/-- A term with a tree has nodes, and the last one unfolds to the tree. -/
theorem treeAt_of_tree? {t : Term} {u : Tree} (h : t.tree? = some u) :
    t.isEmpty = false ∧ t.treeAt (t.size - 1) = u := by
  have hempty : t.isEmpty = false := by
    rw [Bool.eq_false_iff]
    intro hempty
    rw [tree?_eq_none hempty] at h
    cases h
  rw [tree?_eq t hempty] at h
  exact ⟨hempty, Option.some.inj h⟩

/-! ## Trees laid out in full -/

theorem treeAt_push_lt {t : Term} {n : Node Nat} (h : ∀ c ∈ n.children, c < t.size) {i : Nat}
    (hi : i < t.size) : (t.push n h).treeAt i = t.treeAt i := by
  refine eq_of_steps (f := Tree.ofNode) (fun j m hm => ?_) t.steps_treeAt i hi
  refine (t.push n h).steps_treeAt j m ?_
  obtain ⟨hj, rfl⟩ := Array.getElem?_eq_some_iff.1 hm
  rw [push, Array.getElem?_push_lt hj]

theorem treeAt_push_self {t : Term} {n : Node Nat} (h : ∀ c ∈ n.children, c < t.size) :
    (t.push n h).treeAt t.size = Tree.ofNode (n.map t.treeAt) := by
  rw [(t.push n h).steps_treeAt t.size n (by rw [push]; exact Array.getElem?_push_size)]
  exact congrArg _ (Node.map_congr fun c hc => treeAt_push_lt h (h c hc))

@[simp]
theorem size_push {t : Term} {n : Node Nat} (h : ∀ c ∈ n.children, c < t.size) :
    (t.push n h).size = t.size + 1 := Array.size_push _

/-- What adding a tree gives: the old nodes, then nodes that unfold to parts of the tree. -/
structure AddsTree (t : Term) (u : Tree) (s : Term) : Prop where
  lt : t.size < s.size
  old : ∀ i, i < t.size → s.treeAt i = t.treeAt i
  last : s.treeAt (s.size - 1) = u
  part : ∀ i, t.size ≤ i → i < s.size → s.treeAt i ∈ u.parts

theorem addsTree_push {t s : Term} {v : Tree} {n : Node Nat} (h : ∀ c ∈ n.children, c < s.size)
    (hle : t.size ≤ s.size) (hold : ∀ i, i < t.size → s.treeAt i = t.treeAt i)
    (hpart : ∀ i, t.size ≤ i → i < s.size → s.treeAt i ∈ v.parts)
    (hn : Tree.ofNode (n.map s.treeAt) = v) (hv : v ∈ v.parts) :
    AddsTree t v (s.push n h) where
  lt := by
    rw [size_push]
    exact Nat.lt_succ_of_le hle
  old := fun i hi => by rw [treeAt_push_lt h (Nat.lt_of_lt_of_le hi hle), hold i hi]
  last := by rw [size_push, Nat.add_sub_cancel, treeAt_push_self h, hn]
  part := by
    intro i hi hlt
    rw [size_push] at hlt
    rcases Nat.lt_or_eq_of_le (Nat.le_of_lt_succ hlt) with hlt | rfl
    · rw [treeAt_push_lt h hlt]
      exact hpart i hi hlt
    · rw [treeAt_push_self h, hn]
      exact hv

theorem addsTree_addTree (t : Term) (u : Tree) : AddsTree t u (t.addTree u).1 := by
  induction u generalizing t with
  | leaf l =>
    exact addsTree_push (by simp [Node.children]) (Nat.le_refl _) (fun _ _ => rfl)
      (fun i hi hlt => absurd hi (Nat.not_le_of_lt hlt)) rfl (by simp [Tree.parts])
  | unary op u ih =>
    obtain ⟨hlt, hold, hlast, hpart⟩ := ih t
    have hchild : ∀ c ∈ (Node.unary op ((t.addTree u).1.size - 1)).children,
        c < (t.addTree u).1.size := by
      simp only [Node.children, List.mem_singleton, forall_eq]
      omega
    refine addsTree_push hchild (Nat.le_of_lt hlt) hold (fun i hi hi' => ?_) ?_
      (by simp [Tree.parts])
    · exact List.mem_cons_of_mem _ (hpart i hi hi')
    · exact congrArg (Tree.unary op) hlast
  | binary op u v ihu ihv =>
    obtain ⟨hlt, hold, hlast, hpart⟩ := ihu t
    obtain ⟨hlt', hold', hlast', hpart'⟩ := ihv (t.addTree u).1
    have hchild : ∀ c ∈ (Node.binary op ((t.addTree u).1.size - 1)
        (((t.addTree u).1.addTree v).1.size - 1)).children,
        c < ((t.addTree u).1.addTree v).1.size := by
      simp only [Node.children, List.mem_cons, List.not_mem_nil, or_false, forall_eq_or_imp,
        forall_eq]
      omega
    refine addsTree_push hchild (Nat.le_of_lt (Nat.lt_trans hlt hlt')) (fun i hi => ?_)
      (fun i hi hi' => ?_) ?_ (by simp [Tree.parts])
    · rw [hold' i (Nat.lt_trans hi hlt), hold i hi]
    · refine List.mem_cons_of_mem _ (List.mem_append.2 ?_)
      by_cases h : i < (t.addTree u).1.size
      · rw [hold' i h]
        exact .inl (hpart i hi h)
      · exact .inr (hpart' i (Nat.le_of_not_lt h) hi')
    · show Tree.binary op _ _ = _
      rw [hold' _ (Nat.sub_one_lt_of_lt hlt), hlast, hlast']

/-- A tree laid out unfolds to itself. -/
theorem tree?_ofTree (u : Tree) : (ofTree u).tree? = some u := by
  obtain ⟨hlt, -, hlast, -⟩ := addsTree_addTree empty u
  rw [tree?_eq, ofTree, hlast]
  rw [isEmpty, beq_eq_false_iff_ne]
  exact Nat.ne_of_gt hlt

/-- All nodes of a tree laid out unfold to parts of it. -/
theorem mem_parts_of_ofTree {u v : Tree} {i : Nat} (h : (ofTree u).treeAt? i = some v) :
    v ∈ u.parts := by
  obtain ⟨hi, rfl⟩ := lt_of_treeAt? h
  exact (addsTree_addTree empty u).part i (Nat.zero_le i) hi

/-- A function of trees that follows their nodes gives values along a term. -/
theorem steps_of_tree {f : Node β → β} {v : Tree → β}
    (hv : ∀ n : Node Tree, v (Tree.ofNode n) = f (n.map v)) (t : Term) :
    t.Steps f fun i => v (t.treeAt i) := by
  intro i n hn
  dsimp only
  rw [t.steps_treeAt i n hn, hv, Node.map_map]
  rfl

/-- If what the nodes unfold to have values that follow the nodes, so have the nodes, over the
values of their children. -/
theorem exists_values_of_tree [Inhabited β] {f : Node (Option β) → Option β}
    {v : Tree → Option β} (hv : ∀ n : Node Tree, v (Tree.ofNode n) = f (n.map v)) (t : Term)
    (h : ∀ i, i < t.size → ∃ b, v (t.treeAt i) = some b) :
    ∃ value : Nat → β, (∀ i, i < t.size → v (t.treeAt i) = some (value i)) ∧
      ∀ (i : Nat) (n : Node Nat), t.nodes[i]? = some n →
        f ((n.map value).map some) = some (value i) := by
  have hvalue : ∀ i, i < t.size → v (t.treeAt i) = some ((v (t.treeAt i)).getD default) := by
    intro i hi
    obtain ⟨b, hb⟩ := h i hi
    rw [hb, Option.getD_some]
  refine ⟨_, hvalue, fun i n hn => ?_⟩
  have hi : i < t.size := (Array.getElem?_eq_some_iff.1 hn).1
  rw [← hvalue i hi, Node.map_map]
  refine Eq.trans ?_ (t.steps_of_tree hv i n hn).symm
  refine congrArg f (Node.map_congr fun c hc => ?_)
  exact (hvalue c (Nat.lt_trans (lt_of_mem_children hn hc) hi)).symm

/-- Values of the nodes of a term are those of what the nodes unfold to. -/
theorem value_of_tree {f : Node (Option β) → Option β} {v : Tree → Option β}
    (hv : ∀ n : Node Tree, v (Tree.ofNode n) = f (n.map v)) {t : Term} {value : Nat → β}
    (h : ∀ (i : Nat) (n : Node Nat), t.nodes[i]? = some n →
      f ((n.map value).map some) = some (value i)) {i : Nat} (hi : i < t.size) :
    v (t.treeAt i) = some (value i) := by
  have hsteps : t.Steps f fun i => some (value i) := by
    intro j n hn
    have hj := h j n hn
    rw [Node.map_map] at hj
    exact hj.symm
  exact eq_of_steps (t.steps_of_tree hv) hsteps i hi

/-- Values of the nodes of a term that agree with the meaning. -/
def Valued {D : Type} (I : Meaning D) (t : Term) (value : Nat → D) : Prop :=
  ∀ (i : Nat) (n : Node Nat), t.nodes[i]? = some n → I.Holds (n.map value) (value i)

end Term

end EqSat
