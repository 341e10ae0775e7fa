import EqSat.Proofs.Choices

/-!
# Extracted terms

The chosen nodes are laid out from the children up, one for a class.  Every node of the term
so belongs to a class, which lists it over the classes of its children, and the last one
belongs to the class that was asked for.  A child never belongs to the class of its parent.
The costs of the classes follow the nodes, so that the term costs what its class does: the least
cost of the trees that the class represents.

    layOut_cases         a class that has no place yet is laid out after its children
    laysOut              a class that has a choice gets a place
    extract_spec         extraction spells the class
    extract_cheapest     at the least cost of the trees that the class represents
    Spells.holds         and the term's nodes hold, with the values of their classes
-/

namespace EqSat

namespace EGraph

variable {D : Type} {I : Meaning D} {g : EGraph} {o : Origin D} {cost : CostFunction Nat}
  {best : Choices Nat} {height cls : ClassId → Nat}

/-- Every node laid out is the one chosen for a class, over the classes of its children, and
the places of the classes are known. -/
structure Laid (g : EGraph) (best : Choices Nat) (l : Layout) (cls : Nat → ClassId) : Prop where
  node : ∀ (i : Nat) (n : Node Nat), l.term.nodes[i]? = some n →
    ∃ k m, best.choice? (cls i) = some (k, m) ∧ n.map cls = g.canonicalize m
  place : ∀ id p, l.places[id]? = some p → p < l.term.size ∧ cls p = id

/-- The classes that had a place keep it. -/
def Kept (l l' : Layout) : Prop :=
  ∀ (id : ClassId) (p : Nat), l.places[id]? = some p → l'.places[id]? = some p

/-- The class has got a place: the last one, if it had none. -/
def Placed (l l' : Layout) (id : ClassId) : Prop :=
  ∃ p : Nat, l'.places[id]? = some p ∧ (l.places[id]? = none → p = l'.term.size - 1)

theorem laid_push {l : Layout} (h : g.Laid best l cls) {id : ClassId} {k : Nat} {m : ENode}
    (hm : best.choice? id = some (k, m)) {n : Node Nat} (hn : n.map cls = g.canonicalize m)
    (hlt : ∀ c ∈ n.children, c < l.term.size) :
    g.Laid best ⟨l.term.push n hlt, l.places.insert id l.term.size⟩
      (Function.update cls l.term.size id) := by
  have hold : ∀ p, p < l.term.size → Function.update cls l.term.size id p = cls p :=
    fun p hp => Function.update_of_ne (Nat.ne_of_lt hp) _ _
  constructor
  · intro i n' hn'
    rw [Term.push, Array.getElem?_push] at hn'
    split at hn'
    · next hi =>
      cases hn'
      subst hi
      refine ⟨k, m, by rw [← Term.size, Function.update_self, hm], ?_⟩
      rw [← hn]
      exact Node.map_congr fun c hc => hold c (hlt c hc)
    · have hi : i < l.term.size := (Array.getElem?_eq_some_iff.1 hn').1
      obtain ⟨k', m', hm', hmap⟩ := h.node i n' hn'
      refine ⟨k', m', by rw [hold i hi, hm'], ?_⟩
      rw [← hmap]
      exact Node.map_congr fun c hc =>
        hold c (Nat.lt_trans (Term.lt_of_mem_children hn' hc) hi)
  · intro j p hp
    have hsize : (l.term.push n hlt).size = l.term.size + 1 := Array.size_push _
    rw [Std.TreeMap.getElem?_insert] at hp
    rw [hsize]
    split at hp
    · next hj =>
      cases hp
      rw [Function.update_self]
      exact ⟨Nat.lt_succ_self _, Std.compare_eq_iff_eq.1 hj⟩
    · obtain ⟨hlt', hcls⟩ := h.place j p hp
      exact ⟨Nat.lt_succ_of_lt hlt', by rw [hold p hlt', hcls]⟩

theorem laid_empty (g : EGraph) (best : Choices Nat) : g.Laid best ⟨.empty, ∅⟩ fun _ => 0 := by
  constructor
  · intro i n hn
    simp [Term.empty] at hn
  · intro j p hp
    simp at hp

/-- The children of a chosen node are classes. -/
theorem Chosen.child_lt (hg : g.Grounded) (hb : g.Chosen cost best height) {id : ClassId} {k : Nat}
    {n : ENode} (hn : best.choice? id = some (k, n)) : ∀ a ∈ n.children, a < g.size := by
  obtain ⟨c, hc, hmem⟩ := hb.node id k n hn
  exact hg.child_lt id n ((mem_nodesAt_of_stored hg.shape hc).2 hmem)

/-- Classes below a height are given a place, after the places of the classes they need. -/
def LaysOut (g : EGraph) (best : Choices Nat) (height : ClassId → Nat) (fuel : Nat) : Prop :=
  ∀ (l : Layout) (cls : Nat → ClassId) (id : ClassId), g.Laid best l cls → id < g.size →
    height (g.find id) < fuel →
    ∃ cls', g.Laid best (g.layOut best fuel l id) cls' ∧ Kept l (g.layOut best fuel l id) ∧
      Placed l (g.layOut best fuel l id) (g.find id)

theorem layOut_children {fuel : Nat} (hall : g.LaysOut best height fuel) (cs : List ClassId)
    {l : Layout} (hcs : ∀ a ∈ cs, a < g.size ∧ height (g.find a) < fuel)
    (hl : g.Laid best l cls) :
    let l' := cs.foldl (fun l a => g.layOut best fuel l a) l
    ∃ cls', g.Laid best l' cls' ∧ Kept l l' ∧
      ∀ a ∈ cs, ∃ p : Nat, l'.places[g.find a]? = some p := by
  induction cs generalizing l cls with
  | nil => exact ⟨cls, hl, fun _ _ hp => hp, fun a ha => by cases ha⟩
  | cons a cs ih =>
    obtain ⟨cls₁, hl₁, hkept₁, p, hp, -⟩ := hall l cls a hl (hcs a List.mem_cons_self).1
      (hcs a List.mem_cons_self).2
    obtain ⟨cls₂, hl₂, hkept₂, hplaces⟩ :=
      ih (fun b hb => hcs b (List.mem_cons_of_mem a hb)) hl₁
    refine ⟨cls₂, hl₂, fun j q hq => hkept₂ j q (hkept₁ j q hq), fun b hb => ?_⟩
    rcases List.mem_cons.1 hb with rfl | hb
    · exact ⟨p, hkept₂ _ p hp⟩
    · exact hplaces b hb

/-- The chosen node of a class over the places of its children. -/
def Layout.over (g : EGraph) (l : Layout) (n : ENode) : Node Nat :=
  n.map fun a => l.places.getD (g.find a) 0

theorem Layout.push_over {l : Layout} {n : ENode}
    (hplaces : ∀ a ∈ n.children, l.places[g.find a]? = some (l.places.getD (g.find a) 0))
    (hlt : ∀ c ∈ (l.over g n).children, c < l.term.size) :
    (n.mapM fun a => l.places[g.find a]?).bind l.term.push? =
      some (l.term.push (l.over g n) hlt) := by
  rw [Node.mapM_eq_some_map hplaces, Option.bind_some, ← Layout.over, Term.push?, dif_pos hlt]

theorem Layout.contains_of_placed {l : Layout} {id : ClassId} {p : Nat}
    (h : l.places[id]? = some p) : l.places.contains id = true := by
  rw [Std.TreeMap.contains_eq_isSome_getElem?, h, Option.isSome_some]

theorem Layout.not_contains {l : Layout} {id : ClassId} (h : l.places[id]? = none) :
    l.places.contains id = false := by
  rw [Std.TreeMap.contains_eq_isSome_getElem?, h, Option.isSome_none]

theorem layOut_of_placed {l : Layout} {id : ClassId} {fuel p : Nat}
    (h : l.places[g.find id]? = some p) : g.layOut best fuel l id = l := by
  cases fuel with
  | zero => rfl
  | succ fuel =>
    rw [layOut]
    dsimp only
    rw [if_pos (Layout.contains_of_placed h)]

/-- The layout of a class that has no place goes on from `l`, by that of its children, to `l'` and
ends with the chosen node `n`. -/
structure Completes (g : EGraph) (best : Choices Nat) (fuel : Nat) (l l' : Layout) (id : ClassId)
    (n : ENode) : Prop where
  fresh : l.places[g.find id]? = none
  chosen : ∃ k, best.choice? (g.find id) = some (k, n)
  children : l' = n.children.foldl (fun l a => g.layOut best fuel l a) l
  places : ∀ a ∈ n.children, l'.places[g.find a]? = some (l'.places.getD (g.find a) 0)
  lt : ∀ c ∈ (l'.over g n).children, c < l'.term.size
  layOut_eq : g.layOut best (fuel + 1) l id =
    ⟨l'.term.push (l'.over g n) lt, l'.places.insert (g.find id) l'.term.size⟩

/-- A class that has a place is left alone, and another one is laid out after its children. -/
theorem layOut_cases (hg : g.Grounded) (hb : g.Chosen cost best height) {fuel : Nat}
    (hall : g.LaysOut best height fuel) {l : Layout} (hl : g.Laid best l cls) {id : ClassId}
    (hid : id < g.size) (hfuel : height (g.find id) < fuel + 1) :
    (∃ p, l.places[g.find id]? = some p ∧ g.layOut best (fuel + 1) l id = l) ∨
      ∃ l' n cls', g.Completes best fuel l l' id n ∧ g.Laid best l' cls' ∧ Kept l l' := by
  obtain ⟨k, n, hn⟩ := hb.total id hid
  cases hplace : l.places[g.find id]? with
  | some p =>
    exact .inl ⟨p, rfl, layOut_of_placed hplace⟩
  | none =>
    obtain ⟨cls', hl', hkept, hplaces⟩ := layOut_children hall n.children (fun a ha =>
      ⟨hb.child_lt hg hn a ha, Nat.lt_of_lt_of_le (hb.lower _ k n hn a ha)
        (Nat.le_of_lt_succ hfuel)⟩) hl
    refine .inr ⟨n.children.foldl (fun l a => g.layOut best fuel l a) l, n, cls', ?_, hl', hkept⟩
    generalize hfold : n.children.foldl (fun l a => g.layOut best fuel l a) l = l'
      at hl' hkept hplaces ⊢
    -- all children have places now, so the node can be laid out over them
    have hplace' : ∀ a ∈ n.children,
        l'.places[g.find a]? = some (l'.places.getD (g.find a) 0) := by
      intro a ha
      obtain ⟨p, hp⟩ := hplaces a ha
      rw [Std.TreeMap.getD_eq_getD_getElem?, hp, Option.getD_some]
    have hlt : ∀ c ∈ (l'.over g n).children, c < l'.term.size :=
      Node.forall_mem_children_map.2 fun a ha => (hl'.place _ _ (hplace' a ha)).1
    refine ⟨hplace, ⟨k, hn⟩, hfold.symm, hplace', hlt, ?_⟩
    rw [layOut]
    dsimp only
    rw [if_neg (by rw [Layout.not_contains hplace]; decide), hn]
    dsimp only
    rw [hfold, Layout.push_over hplace' hlt]
    dsimp only
    rw [Term.size_push, Nat.add_sub_cancel]

theorem laysOut (hg : g.Grounded) (hb : g.Chosen cost best height) (fuel : Nat) :
    g.LaysOut best height fuel := by
  induction fuel with
  | zero => exact fun l cls id _ _ hfuel => absurd hfuel (Nat.not_lt_zero _)
  | succ fuel ih =>
    intro l cls id hl hid hfuel
    obtain ⟨p, hp, heq⟩ | ⟨l', n, cls', hdone, hl', hkept⟩ := layOut_cases hg hb ih hl hid hfuel
    · rw [heq]
      refine ⟨cls, hl, fun _ _ hp => hp, p, hp, fun hnone => ?_⟩
      rw [hp] at hnone
      cases hnone
    · obtain ⟨k, hn⟩ := hdone.chosen
      have hmap : (l'.over g n).map cls' = g.canonicalize n := by
        rw [Layout.over, Node.map_map]
        exact Node.map_congr fun a ha => (hl'.place _ _ (hdone.places a ha)).2
      rw [hdone.layOut_eq]
      refine ⟨_, laid_push hl' hn hmap hdone.lt, fun j p hp => ?_, l'.term.size,
        Std.TreeMap.getElem?_insert_self, fun _ => ?_⟩
      · have hne : compare (g.find id) j ≠ .eq := by
          intro heq
          rw [← Std.compare_eq_iff_eq.1 heq, hdone.fresh] at hp
          cases hp
        rw [Std.TreeMap.getElem?_insert, if_neg hne]
        exact hkept j p hp
      · rw [Term.size_push, Nat.add_sub_cancel]

/-- More fuel than the class is high lays out the same. -/
theorem layOut_eq_of_height (hg : g.Grounded) (hb : g.Chosen cost best height) {fuel fuel' : Nat}
    {l : Layout} {id : ClassId} (hid : id < g.size) (hfuel : height (g.find id) < fuel)
    (hfuel' : height (g.find id) < fuel') :
    g.layOut best fuel l id = g.layOut best fuel' l id := by
  induction fuel generalizing fuel' l id with
  | zero => exact absurd hfuel (Nat.not_lt_zero _)
  | succ fuel ih =>
    cases fuel' with
    | zero => exact absurd hfuel' (Nat.not_lt_zero _)
    | succ fuel' =>
      obtain ⟨k, n, hn⟩ := hb.total id hid
      have hchildren : n.children.foldl (fun l a => g.layOut best fuel l a) l =
          n.children.foldl (fun l a => g.layOut best fuel' l a) l := by
        refine List.foldl_ext _ _ _ fun l a ha => ?_
        have hlower := hb.lower _ k n hn a ha
        exact ih (hb.child_lt hg hn a ha) (by omega) (by omega)
      rw [layOut, layOut]
      dsimp only
      rw [hn]
      dsimp only
      rw [hchildren]

/-! ## The term of a class -/

/-- The nodes of a term belong to classes, which list them, and the last one to the class of
`id`.  No node belongs to the class of its parent. -/
structure Spells (g : EGraph) (t : Term) (cls : Nat → ClassId) (id : ClassId) : Prop where
  nonempty : t.isEmpty = false
  root : cls (t.size - 1) = g.find id
  node : ∀ (i : Nat) (n : Node Nat), t.nodes[i]? = some n →
    ∃ c m, g.stored? (cls i) = some c ∧ m ∈ c.nodes ∧ n.map cls = g.canonicalize m
  apart : ∀ (i : Nat) (n : Node Nat), t.nodes[i]? = some n → ∀ c ∈ n.children, cls c ≠ cls i

/-- The costs of classes follow the nodes that spell them. -/
theorem Laid.steps {l : Layout} (hl : g.Laid best l cls) (hb : g.Chosen cost best height) :
    l.term.Steps cost fun i => (best.cost? (cls i)).getD 0 := by
  intro i n hn
  obtain ⟨k, m, hm, hmap⟩ := hl.node i n hn
  obtain ⟨v, hv, rfl⟩ := nodeCost_eq_some_iff.1 (hb.exact _ k m hm)
  have hcost : best.cost? (cls i) = some (cost (m.map v)) := cost_of_choice hm
  dsimp only
  rw [hcost, Option.getD_some]
  have hchild : n.map (fun c => (best.cost? (cls c)).getD 0) =
      (n.map cls).map fun a => (best.cost? a).getD 0 :=
    (n.map_map (fun a => (best.cost? a).getD 0) cls).symm
  rw [hchild, hmap, canonicalize, Node.map_map]
  refine congrArg cost (Node.map_congr fun a ha => ?_)
  show v a = (best.cost? (g.find a)).getD 0
  rw [hv a ha, Option.getD_some]

/-- The layout that an extraction makes: its last place is that of the class. -/
theorem exists_layout (hg : g.Grounded) (hclean : g.clean = true)
    (hb : g.Chosen cost (g.choices cost) height) {id : ClassId} (hid : id < g.size) :
    ∃ k n l cls, (g.choices cost).choice? (g.find id) = some (k, n) ∧
      l = g.layOut (g.choices cost) (g.numClasses + 1) ⟨.empty, ∅⟩ (g.find id) ∧
      g.extract cost id = .ok ⟨k, n, l.term⟩ ∧ g.Laid (g.choices cost) l cls ∧
      l.places[g.find id]? = some (l.term.size - 1) := by
  obtain ⟨k, n, hn⟩ := hb.total id hid
  obtain ⟨cls, hl, -, p, hp, hlast⟩ := laysOut hg hb (g.numClasses + 1) _ _ (g.find id)
    (laid_empty g _) (find_lt hg.shape hid) (by
      rw [find_find hg.shape, numClasses_eq]
      exact Nat.lt_succ_of_lt (hb.bound _ k n hn))
  rw [find_find hg.shape] at hp hlast
  refine ⟨k, n, _, cls, hn, rfl, ?_, hl, ?_⟩
  · rw [extract, if_pos hclean]
    dsimp only
    rw [hn]
  · rw [hp, hlast (by simp)]

/-- Chosen nodes that are laid out spell the class that got the last place. -/
theorem Laid.spells {l : Layout} (hl : g.Laid best l cls) (hb : g.Chosen cost best height)
    {id : ClassId} (hlast : l.places[g.find id]? = some (l.term.size - 1)) :
    g.Spells l.term cls id := by
  obtain ⟨hlt, hroot⟩ := hl.place _ _ hlast
  refine ⟨?_, hroot, fun i n hn => ?_, fun i n hn c hc heq => ?_⟩
  · rw [Term.isEmpty, beq_eq_false_iff_ne]
    exact Nat.ne_of_gt (Nat.lt_of_le_of_lt (Nat.zero_le _) hlt)
  · obtain ⟨k, m, hm, hmap⟩ := hl.node i n hn
    obtain ⟨c, hc, hmem⟩ := hb.node _ k m hm
    exact ⟨c, m, hc, hmem, hmap⟩
  · obtain ⟨k, m, hm, hmap⟩ := hl.node i n hn
    have hmem : cls c ∈ (g.canonicalize m).children := hmap ▸ Node.mem_children_map cls hc
    obtain ⟨a, ha, hac⟩ := mem_children_canonicalize.1 hmem
    have hlower := hb.lower _ k m hm a ha
    rw [hac, heq] at hlower
    exact Nat.lt_irrefl _ hlower

/-- **Extraction** never fails on a rebuilt graph, and spells the class.  The costs follow the
nodes, up to the one that is reported, and no tree of the class is cheaper. -/
theorem extract_spec (hg : g.Grounded) (hclean : g.clean = true) (hc : cost.Above)
    (hm : cost.Monotone) {id : ClassId} (hid : id < g.size) :
    ∃ e cls value, g.extract cost id = .ok e ∧ g.Spells e.term cls id ∧
      e.term.Steps cost value ∧ value (e.term.size - 1) = e.cost ∧
      ∀ t, g.Represents t id → e.cost ≤ cost.tree t := by
  obtain ⟨height, hb⟩ := chosen_choices hg hc hm
  obtain ⟨k, n, l, cls, hn, -, hrun, hl, hlast⟩ := exists_layout hg hclean hb hid
  have hspells := hl.spells hb hlast
  refine ⟨_, cls, _, hrun, hspells, hl.steps hb, ?_, fun t ht => ?_⟩
  · dsimp only
    rw [hspells.root, Choices.cost?, hn]
    rfl
  · exact hb.least _ k n hn t (ht.of_find_eq (find_find hg.shape id).symm)

/-- A leaf that is chosen for a class is the term extracted. -/
theorem extract_of_choice_leaf (hs : g.Shape) (hclean : g.clean = true) {id : ClassId} {k : Nat}
    {l : Leaf} (hn : (g.choices cost).choice? (g.find id) = some (k, .leaf l)) :
    g.extract cost id = .ok ⟨k, .leaf l, Term.ofTree (.leaf l)⟩ := by
  have hlaid : (g.layOut (g.choices cost) (g.numClasses + 1) ⟨.empty, ∅⟩ (g.find id)).term =
      Term.ofTree (.leaf l) := by
    rw [layOut]
    dsimp only
    rw [find_find hs, hn, if_neg (by simp)]
    rfl
  rw [extract, if_pos hclean]
  dsimp only
  rw [hn, hlaid]

/-- The trees of a term's nodes are represented by the classes of the nodes. -/
theorem Spells.represents (hs : g.Shape) {t : Term} {id : ClassId} (h : g.Spells t cls id) (i : Nat)
    (hi : i < t.size) : g.Represents (t.treeAt i) (cls i) := by
  induction i using Nat.strong_induction_on with
  | _ i ih =>
    obtain ⟨n, hn⟩ := Term.exists_node hi
    obtain ⟨c, m, hc, hmem, hmap⟩ := h.node i n hn
    have hrep : g.Represents
        (.ofNode ((n.map fun a => (t.treeAt a, cls a)).map Prod.fst)) (cls i) := by
      refine represents_of_canonicalize_eq ((mem_nodesAt_of_stored hs hc).2 hmem) ?_
        (Node.forall_mem_children_map.2 fun a ha => ?_)
      · rw [Node.map_map]
        show g.canonicalize m = g.canonicalize (n.map cls)
        rw [hmap, canonicalize_canonicalize hs]
      · have hlt := Term.lt_of_mem_children hn ha
        exact ih a hlt (Nat.lt_trans hlt hi)
    rw [Node.map_map] at hrep
    rw [t.steps_treeAt i n hn]
    exact hrep

/-- **The extracted term** unfolds to a tree of the class that has the cost reported, the least
of all trees of the class. -/
theorem extract_cheapest (hg : g.Grounded) (hclean : g.clean = true) (hc : cost.Above)
    (hm : cost.Monotone) {id : ClassId} (hid : id < g.size) :
    ∃ e u, g.extract cost id = .ok e ∧ e.term.tree? = some u ∧ g.Represents u id ∧
      cost.tree u = e.cost ∧ ∀ t, g.Represents t id → e.cost ≤ cost.tree t := by
  obtain ⟨e, cls, value, hrun, hspells, hsteps, hlast, hleast⟩ := extract_spec hg hclean hc hm hid
  have hlt := Term.size_sub_one_lt hspells.nonempty
  refine ⟨e, _, hrun, Term.tree?_eq _ hspells.nonempty, ?_, ?_, hleast⟩
  · have hrep := hspells.represents hg.shape _ hlt
    rw [hspells.root] at hrep
    exact hrep.of_find_eq (find_find hg.shape id)
  · rw [← hlast]
    exact Term.eq_of_steps (Term.steps_of_tree cost.tree_ofNode e.term) hsteps _ hlt

/-- The nodes that spell a class belong to classes of the graph. -/
theorem Spells.lt (hs : g.Shape) {t : Term} {id : ClassId} (h : g.Spells t cls id) {i : Nat}
    (hi : i < t.size) : cls i < g.size := by
  obtain ⟨n, hn⟩ := Term.exists_node hi
  obtain ⟨c, m, hc, -⟩ := h.node i n hn
  exact lt_of_stored hs hc

/-- The nodes that spell a class stand for entered ones. -/
theorem Spells.stands (h : Valid I g o) {t : Term} {id : ClassId} (hs : g.Spells t cls id) {i : Nat}
    {n : Node Nat} (hn : t.nodes[i]? = some n) : g.Stands o (n.map cls, cls i) := by
  obtain ⟨c, m, hc, hmem, hmap⟩ := hs.node i n hn
  refine (h.founded.nodes _ c hc m hmem).of_same ⟨?_, rfl⟩
  rw [hmap, canonicalize_canonicalize h.shape]

/-- **The term of a class** holds, with the values of the classes. -/
theorem Spells.holds (h : Valid I g o) {t : Term} {id : ClassId} (hs : g.Spells t cls id) :
    t.Valued I fun i => o.value (cls i) := by
  intro i n hn
  have := h.holds (hs.stands h hn)
  rwa [Node.map_map] at this

end EGraph

end EqSat
