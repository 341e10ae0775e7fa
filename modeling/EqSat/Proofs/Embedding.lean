import EqSat.Proofs.Classes
import EqSat.Proofs.Reading

/-!
# Graphs that say the same

A rebuilt graph embeds in another one if its classes can be named there in such a way that the other
graph finds every node that it finds.  The names are then determined, from the leaves up.  So two
graphs that embed in each other are copies of each other: they find the same terms in the same
classes, know the same constants, list the same nodes, and have equally many classes and nodes.
Only the ids differ, and the order of what is listed.

    Embeds.unique       there is one embedding at most
    embeds_of_extends   a graph embeds in what becomes of it
    embeds_of_valid     a graph embeds where its nodes hold in what another graph says
    Copies.lists        copies list the same nodes
    Copies.represents   and represent the same trees
-/

namespace EqSat

open EGraph

variable {g g' g'' : EGraph} {f f' : ClassId → ClassId} {id c : ClassId} {n : ENode}
  {k : Constant} {t : Term}

/-- `f` takes the classes of `g` to classes of `g'`, where the same nodes are found. -/
structure Embeds (f : ClassId → ClassId) (g g' : EGraph) : Prop where
  find : ∀ i, i < g.size → f (g.find i) = f i
  lookup : ∀ n c, g.lookup n = some c → g'.lookup (n.map f) = some (f c)

/-- Every class is found by a node over older classes. -/
theorem InOrder.exists_lookup (h : InOrder g) (hid : id < g.size) :
    ∃ n : ENode, (∀ a ∈ n.children, a < id) ∧ g.lookup n = some (g.find id) := by
  obtain ⟨ht, o, hv⟩ := h
  exact ⟨o.node id, hv.founded.child_lt id hid,
    lookup_of_stands hv.known ht.pending ⟨id, hid, same_refl _⟩⟩

/-- A listed node is found in its class. -/
theorem InOrder.lookup_of_lists (h : InOrder g) (hn : g.Lists n id) :
    g.lookup n = some (g.find id) := by
  obtain ⟨ht, o, hv⟩ := h
  obtain ⟨c, hc, hmem⟩ := mem_nodesAt.1 hn
  have hstands := hv.founded.nodes _ c hc n hmem
  rw [lookup_of_stands hv.known ht.pending hstands, find_find hv.shape]

namespace Embeds

theorem trans (h : Embeds f g g') (h' : Embeds f' g' g'') : Embeds (f' ∘ f) g g'' where
  find := fun i hi => congrArg f' (h.find i hi)
  lookup := by
    intro n c hc
    rw [← Node.map_map]
    exact h'.lookup _ _ (h.lookup n c hc)

/-- The classes of the other graph are called by the ids that they have now. -/
theorem current (h : Embeds f g g') (hg : InOrder g) (hg' : InOrder g') (hid : id < g.size) :
    g'.Current (f id) := by
  obtain ⟨n, -, hn⟩ := hg.exists_lookup hid
  have hfound := h.lookup n _ hn
  rw [h.find id hid] at hfound
  exact hg'.current_of_lookup hfound

/-- **There is one embedding** at most. -/
theorem unique (h : Embeds f g g') (h' : Embeds f' g g') (hg : InOrder g) (hid : id < g.size) :
    f id = f' id := by
  induction id using Nat.strong_induction_on with
  | _ id ih =>
    obtain ⟨n, hlt, hn⟩ := hg.exists_lookup hid
    have hmap : n.map f = n.map f' :=
      Node.map_congr fun a ha => ih a (hlt a ha) (Nat.lt_trans (hlt a ha) hid)
    have hfound := h.lookup n _ hn
    rw [hmap, h'.lookup n _ hn, h.find id hid, h'.find id hid] at hfound
    exact (Option.some.inj hfound).symm

/-- What is known of a class is known of its name. -/
theorem constantAt (h : Embeds f g g') (hg : InOrder g) (hg' : InOrder g')
    (hk : g.constantAt? id = some k) : g'.constantAt? (f id) = some k := by
  have hfound := h.lookup _ _ (hg.lookup_of_constantAt hk)
  rw [h.find id (lt_of_constantAt hg.listing.shape hk)] at hfound
  exact hg'.constantAt_of_lookup hfound

/-- Under an embedding the nodes of a graph hold in what the other one says. -/
theorem valid (h : Embeds f g g') (hg : InOrder g) (hg' : InOrder g') :
    ∃ o, Valid hg'.reading g o ∧ ∀ i, o.value i = .inl (f i) := by
  obtain ⟨ht, o, hv⟩ := hg
  refine ⟨⟨o.node, fun i => .inl (f i)⟩, hv.revalue ⟨hv.sound.analysis, fun i hi => ?_,
    fun i hi => congrArg Sum.inl (h.find i hi), fun i k hk => ?_⟩, fun _ => rfl⟩
  · have hn := lookup_of_stands hv.known ht.pending ⟨i, hi, same_refl _⟩
    have hholds := hg'.reads.holds_of_reads (h.lookup _ _ hn)
    rwa [h.find i hi, Node.map_map] at hholds
  · have hfound := h.lookup _ _ (InOrder.lookup_of_constantAt ⟨ht, o, hv⟩ hk)
    rw [h.find i (lt_of_constantAt hv.shape hk)] at hfound
    exact (hg'.reads.placeOf_eq_inl.2 hfound).symm

/-- Terms that are found in a graph are found in the other one. -/
theorem lookupNodes (h : Embeds f g g') {ns : List (Node Nat)} {ids ids' : Array ClassId}
    (hids : g.lookupNodes ns ids = some ids') :
    g'.lookupNodes ns (ids.map f) = some (ids'.map f) := by
  induction ns generalizing ids with
  | nil =>
    cases hids
    rfl
  | cons n ns ih =>
    obtain ⟨m, hm, hids⟩ := Option.bind_eq_some_iff.1 hids
    obtain ⟨c, hc, hids⟩ := Option.bind_eq_some_iff.1 hids
    have hm' : n.mapM ((ids.map f)[·]?) = some (m.map f) := by
      rw [Node.mapM_eq_some_iff] at hm ⊢
      have hmap := congrArg (Node.map (Option.map f)) hm
      rw [Node.map_map, Node.map_map] at hmap
      rw [Node.map_map, ← show m.map (Option.map f ∘ some) = m.map (some ∘ f) from rfl, ← hmap]
      exact Node.map_congr fun i _ => Array.getElem?_map
    have hnext : g'.lookupNodes (n :: ns) (ids.map f) =
        g'.lookupNodes ns ((ids.map f).push (f c)) := by
      show (n.mapM ((ids.map f)[·]?)).bind (fun m => (g'.lookup m).bind fun id =>
        g'.lookupNodes ns ((ids.map f).push id)) = _
      rw [hm', Option.bind_some, h.lookup m c hc, Option.bind_some]
    rw [hnext, ← Array.map_push]
    exact ih hids

theorem lookupTerm (h : Embeds f g g') (hc : g.lookupTerm t = some c) :
    g'.lookupTerm t = some (f c) := by
  obtain ⟨ids, hids, hlast⟩ := Option.bind_eq_some_iff.1 hc
  have hids' : g'.lookupNodes t.nodes.toList #[] = some (ids.map f) := by
    rw [← h.lookupNodes hids, Array.map_empty]
  show (g'.lookupNodes t.nodes.toList #[]).bind Array.back? = _
  rw [hids', Option.bind_some, Array.back?_map, hlast, Option.map_some]

end Embeds

/-- **A graph embeds** in what becomes of it. -/
theorem embeds_of_extends {D : Type} {I : Meaning D} {o o' : Origin D} {new : ENode → Prop}
    (hv : Valid I g o) (hv' : Valid I g' o') (hp' : g'.pending = [])
    (hext : Extends new g o g' o') : Embeds g'.find g g' where
  find := fun i _ => hext.find _ _ (find_find hv.shape i)
  lookup := by
    intro n c hc
    have hstands := hext.stands (stands_of_lookup hv.shape hv.founded hc)
    rw [← lookup_of_stands hv'.known hp' hstands]
    exact lookup_canonicalize hv'.shape n

/-- **A graph embeds** in one that says all that holds in it. -/
theorem embeds_of_valid (hg' : InOrder g') {o : Origin Place} (hv : Valid hg'.reading g o)
    (hf : ∀ i, i < g.size → o.value i = .inl (f i)) : Embeds f g g' where
  find := by
    intro i hi
    have hvalue := hv.sound.value_find i hi
    rw [hf i hi, hf _ (find_lt hv.shape hi)] at hvalue
    exact Sum.inl_injective hvalue
  lookup := by
    intro n c hc
    have hstands := stands_of_lookup hv.shape hv.founded hc
    have hholds := hv.holds hstands
    have hmap : n.map o.value = (n.map f).map .inl := by
      rw [Node.map_map]
      exact Node.map_congr fun a ha => hf a (hstands.child_lt hv.shape hv.founded a ha)
    rw [hmap, hf c (hstands.lt hv.shape)] at hholds
    exact hg'.reads.holds_iff.1 hholds

/-! ## Copies -/

/-- Two rebuilt graphs that embed in each other. -/
structure Copies (f f' : ClassId → ClassId) (g g' : EGraph) : Prop where
  inOrder : InOrder g
  inOrder' : InOrder g'
  there : Embeds f g g'
  back : Embeds f' g' g

namespace Copies

theorem symm (h : Copies f f' g g') : Copies f' f g' g := ⟨h.inOrder', h.inOrder, h.back, h.there⟩

theorem refl (h : InOrder g) : Copies g.find g.find g g := by
  have hself : Embeds g.find g g := by
    obtain ⟨ht, o, hv⟩ := h
    have hext : Extends (fun _ => True) g o g o := .refl
    exact embeds_of_extends hv hv ht.pending hext
  exact ⟨h, h, hself, hself⟩

/-- There and back is where one was. -/
theorem find_eq (h : Copies f f' g g') (hid : id < g.size) : f' (f id) = g.find id :=
  (h.there.trans h.back).unique (Copies.refl h.inOrder).there h.inOrder hid

theorem current (h : Copies f f' g g') (hid : g.Current id) : g'.Current (f id) :=
  h.there.current h.inOrder h.inOrder' hid.1

/-- Different classes have different names. -/
theorem injOn (h : Copies f f' g g') {a b : ClassId} (ha : g.Current a) (hb : g.Current b)
    (hab : f a = f b) : a = b := by
  rw [← ha.2, ← hb.2, ← h.find_eq ha.1, ← h.find_eq hb.1, hab]

/-- **Copies** list the same nodes. -/
theorem lists (h : Copies f f' g g') (hn : g.Lists n id) : g'.Lists (n.map f) (f id) := by
  have hs := h.inOrder.listing.shape
  have hlt := lt_of_mem_nodesAt hs hn
  have hfound := h.there.lookup _ _ (h.inOrder.lookup_of_lists hn)
  rw [h.there.find id hlt] at hfound
  refine h.inOrder'.lists_of_lookup (Node.forall_mem_children_map.2 fun a ha =>
    h.current (h.inOrder.listing.current id n hn a ha)) hfound ?_
  cases hk : g'.constantAt? (f id) with
  | none => exact .inl rfl
  | some k =>
    have hk' := h.back.constantAt h.inOrder' h.inOrder hk
    rw [h.find_eq hlt, constantAt_of_find_eq (find_find hs id)] at hk'
    obtain ⟨c, hc, hdata⟩ := Option.bind_eq_some_iff.1 hk'
    obtain ⟨c', hc', hmem⟩ := mem_nodesAt.1 hn
    obtain rfl := Option.some.inj (hc.symm.trans hc')
    obtain ⟨-, o, hv⟩ := h.inOrder
    rw [Node.isLeaf_map]
    exact .inr ((hv.settled _ c k not_false hc hdata).2.2 n hmem)

/-- Copies represent the same trees. -/
theorem represents (h : Copies f f' g g') {u : Tree} (hu : g.Represents u id) :
    g'.Represents u (f id) := by
  induction u using Tree.ofNode_induction generalizing id with
  | h m ih =>
    obtain ⟨q, hm, hq, hchild⟩ := represents_iff.1 hu
    obtain rfl := Tree.ofNode_injective hm
    have hq' := h.lists hq
    rw [Node.map_map] at hq'
    refine represents_iff.2 ⟨q.map fun p => (p.1, f p.2), ?_, ?_,
      Node.forall_mem_children_map.2 fun p hp =>
        ih p.1 (Node.forall_mem_children_map.1 (fun _ h => h) p hp) (hchild p hp)⟩
    · rw [Node.map_map]
      rfl
    · rw [Node.map_map]
      exact hq'

/-- The terms that are extracted from a class and from its copy cost the same. -/
theorem extract_cost (h : Copies f f' g g') (hid : id < g.size) (hid' : c < g'.size)
    (hc : f id = g'.find c) : ∃ e e' k, g.extract .size id = .ok e ∧ g'.extract .size c = .ok e' ∧
      e.term.cost? = some k ∧ e'.term.cost? = some k := by
  have hs' := h.inOrder'.listing.shape
  obtain ⟨e, u, he, htree, hrep, hcost, hleast⟩ := h.inOrder.extract_size hid
  obtain ⟨e', u', he', htree', hrep', hcost', hleast'⟩ := h.inOrder'.extract_size hid'
  have hle : u.size ≤ u'.size := by
    have hback := h.symm.represents (hrep'.of_find_eq (find_find hs' c).symm)
    rw [← hc, h.find_eq hid] at hback
    rw [hcost]
    exact hleast u' (hback.of_find_eq (find_find h.inOrder.listing.shape id))
  have hle' : u'.size ≤ u.size := by
    have hthere := h.represents hrep
    rw [hc] at hthere
    rw [hcost']
    exact hleast' u (hthere.of_find_eq (find_find hs' c))
  refine ⟨e, e', u.size, he, he', Term.cost?_of_tree? htree, ?_⟩
  rw [Nat.le_antisymm hle hle']
  exact Term.cost?_of_tree? htree'

/-- The matches of a pattern are found in the copy. -/
theorem search (h : Copies f f' g g') {p : Pattern} {m : Match} (hm : m ∈ p.search g) :
    ∃ m' ∈ p.search g', m'.1 = f m.1 ∧ ∀ x ∈ p.vars, m'.2.get x = f (m.2.get x) :=
  Pattern.search_map h.inOrder.listing h.inOrder'.listing (fun _ => h.current) (fun _ _ => h.lists)
    hm

/-! ## Sizes -/

/-- A copy has no fewer classes. -/
theorem numClasses_le (h : Copies f f' g g') : g.numClasses ≤ g'.numClasses := by
  have hs := h.inOrder.listing.shape
  have hs' := h.inOrder'.listing.shape
  rw [← card_roots hs, ← card_roots hs']
  refine Finset.card_le_card_of_injOn f (fun a ha => ?_) fun a ha b hb hab => ?_
  · exact (mem_roots hs').2 (h.current ((mem_roots hs).1 ha))
  · exact h.injOn ((mem_roots hs).1 ha) ((mem_roots hs).1 hb) hab

end Copies

namespace EGraph

/-- The nodes that the classes list, class by class. -/
def allNodes (g : EGraph) : List ENode := g.classList.flatMap fun c => c.nodes.toList

theorem foldl_size {f : Nat → Option EClass → Nat} (hnone : ∀ k, f k none = k)
    (hsome : ∀ k c, f k (some c) = k + c.nodes.size) (cs : List (Option EClass)) (k : Nat) :
    cs.foldl f k = k + ((cs.filterMap fun c => c).flatMap fun c => c.nodes.toList).length := by
  induction cs generalizing k with
  | nil => rfl
  | cons c cs ih =>
    rw [List.foldl_cons, ih]
    cases c with
    | none => rw [hnone, List.filterMap_cons]
    | some c =>
      simp only [hsome, List.filterMap_cons, List.flatMap_cons, List.length_append,
        Array.length_toList, Nat.add_assoc]

theorem numNodes_eq (g : EGraph) : g.numNodes = g.allNodes.length := by
  rw [numNodes, ← Array.foldl_toList]
  exact (foldl_size (fun _ => rfl) (fun _ _ => rfl) _ 0).trans (Nat.zero_add _)

theorem mem_allNodes (hs : g.Shape) : n ∈ g.allNodes ↔ ∃ id, g.Lists n id := by
  rw [allNodes, List.mem_flatMap]
  constructor
  · rintro ⟨c, hc, hn⟩
    have hstored := stored_of_mem_classList hs hc
    exact ⟨c.id, (mem_nodesAt_of_stored hs hstored).2 (Array.mem_toList_iff.1 hn)⟩
  · rintro ⟨id, hn⟩
    obtain ⟨c, hc, hmem⟩ := mem_nodesAt.1 hn
    exact ⟨c, mem_classList.2 ⟨_, hc⟩, Array.mem_toList_iff.2 hmem⟩

/-- In a hash-consed graph no node is listed twice. -/
theorem HashConsed.nodup_allNodes (hs : g.Shape) (h : g.HashConsed) : g.allNodes.Nodup := by
  rw [allNodes, List.nodup_flatMap]
  refine ⟨fun c hc => h.distinct c.id c (stored_of_mem_classList hs hc), ?_⟩
  refine List.Pairwise.imp_of_mem (fun {c c'} hc hc' hne => ?_)
    (List.pairwise_map.1 (nodup_map_id_classList hs))
  intro n hn hn'
  exact hne (h.disjoint _ _ c c' n (stored_of_mem_classList hs hc) (stored_of_mem_classList hs hc')
    (Array.mem_toList_iff.1 hn) (Array.mem_toList_iff.1 hn'))

end EGraph

/-- A copy has no fewer nodes. -/
theorem Copies.numNodes_le (h : Copies f f' g g') (hg : g.HashConsed) :
    g.numNodes ≤ g'.numNodes := by
  have hs := h.inOrder.listing.shape
  have hback : ∀ n ∈ g.allNodes, (n.map f).map f' = n := by
    intro n hn
    obtain ⟨id, hid⟩ := (mem_allNodes hs).1 hn
    rw [Node.map_map]
    refine Node.map_eq_self fun a ha => ?_
    have hcurrent := h.inOrder.listing.current id n hid a ha
    exact (h.find_eq hcurrent.1).trans hcurrent.2
  have hnodup : (g.allNodes.map (Node.map f)).Nodup :=
    List.Nodup.map_on (fun m hm n hn hmn => by rw [← hback m hm, ← hback n hn, hmn])
      (hg.nodup_allNodes hs)
  have hsub : ∀ n ∈ g.allNodes.map (Node.map f), n ∈ g'.allNodes := by
    intro n hn
    obtain ⟨m, hm, rfl⟩ := List.mem_map.1 hn
    obtain ⟨id, hid⟩ := (mem_allNodes hs).1 hm
    exact (mem_allNodes h.inOrder'.listing.shape).2 ⟨f id, h.lists hid⟩
  rw [numNodes_eq, numNodes_eq, ← List.length_map (Node.map f)]
  exact (hnodup.subperm hsub).length_le

/-- **Copies** have equally many nodes and classes. -/
theorem Copies.sizes_eq (h : Copies f f' g g') (hg : g.HashConsed) (hg' : g'.HashConsed) :
    (g.numNodes, g.numClasses) = (g'.numNodes, g'.numClasses) := by
  rw [Nat.le_antisymm (h.numNodes_le hg) (h.symm.numNodes_le hg'),
    Nat.le_antisymm h.numClasses_le h.symm.numClasses_le]

end EqSat
