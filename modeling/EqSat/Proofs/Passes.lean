import EqSat.Proofs.EGraph.Count
import EqSat.Proofs.Represented
import Mathlib.Data.Prod.Lex
import Mathlib.Order.WellFounded

/-!
# The passes of an extraction

As long as some class costs more than a tree that it represents, take the cheapest such tree, and
among those the smallest.  Its operands are smaller and no dearer, so that their classes cost no
more than they do, and the next pass lowers the cost of the class to that of the tree.  Each pass
so brings one more class to its least cost: the passes allowed are enough for all classes.

What a class costs is at any time what some tree of it costs.  A pass on classes that all have
their least cost therefore changes nothing.

    improve_cases            what a pass does to a class
    settleCosts_ind          what every cheaper choice keeps, all passes keep
    uncovered_settleCosts    no class costs more than a tree that it represents
    improveAll_of_covered    and then nothing changes any more
-/

namespace EqSat

namespace EGraph

variable {g : EGraph} {cost : CostFunction Nat} {best : Choices Nat}

/-! ## Single classes -/

/-- A node has a cost if its children have. -/
theorem nodeCost_eq_some_iff {n : ENode} {k : Nat} :
    g.nodeCost? cost best n = some k ↔ ∃ v : ClassId → Nat,
      (∀ a ∈ n.children, best.cost? (g.find a) = some (v a)) ∧ cost (n.map v) = k := by
  constructor
  · intro h
    obtain ⟨m, hm, rfl⟩ := Option.map_eq_some_iff.1 h
    have hv : ∀ a ∈ n.children,
        best.cost? (g.find a) = some ((best.cost? (g.find a)).getD 0) := by
      intro a ha
      have hmem : best.cost? (g.find a) ∈ (m.map some).children := by
        rw [← Node.mapM_eq_some_iff.1 hm]
        exact Node.mem_children_map _ ha
      rw [Node.children_map, List.mem_map] at hmem
      obtain ⟨ka, -, heq⟩ := hmem
      rw [← heq, Option.getD_some]
    refine ⟨_, hv, congrArg cost ?_⟩
    exact Option.some.inj ((Node.mapM_eq_some_map hv).symm.trans hm)
  · rintro ⟨v, hv, rfl⟩
    rw [nodeCost?, Node.mapM_eq_some_map hv, Option.map_some]

/-- A node has a cost only if its children have, and none of them costs more. -/
theorem costs_of_nodeCost (hc : cost.Above) {n : ENode} {k : Nat}
    (h : g.nodeCost? cost best n = some k) :
    ∀ a ∈ n.children, ∃ ka, best.cost? (g.find a) = some ka ∧ ka ≤ k := by
  obtain ⟨v, hv, rfl⟩ := nodeCost_eq_some_iff.1 h
  intro a ha
  exact ⟨v a, hv a ha, hc _ _ (Node.mem_children_map v ha)⟩

/-- When no class becomes dearer, no node does. -/
theorem nodeCost_of_noDearer (hm : cost.Monotone) {new : Choices Nat} (h : new.NoDearer best)
    {n : ENode} {k : Nat} (hn : g.nodeCost? cost best n = some k) :
    ∃ k', g.nodeCost? cost new n = some k' ∧ k' ≤ k := by
  obtain ⟨v, hv, rfl⟩ := nodeCost_eq_some_iff.1 hn
  have hex : ∀ a ∈ n.children, ∃ k', new.cost? (g.find a) = some k' ∧ k' ≤ v a :=
    fun a ha => h _ _ (hv a ha)
  choose! w hw using hex
  exact ⟨_, nodeCost_eq_some_iff.2 ⟨w, fun a ha => (hw a ha).1, rfl⟩,
    hm.map_le fun a ha => (hw a ha).2⟩

/-- One step of `cheapest?`. -/
def pick (g : EGraph) (cost : CostFunction Nat) (best : Choices Nat) (found : Option (Nat × ENode))
    (n : ENode) : Option (Nat × ENode) :=
  match g.nodeCost? cost best n, found with
  | none, _ => found
  | some k, none => some (k, n)
  | some k, some (least, _) => if k < least then some (k, n) else found

/-- A node is picked if it costs less than what was found. -/
theorem pick_cases (g : EGraph) (cost : CostFunction Nat) (best : Choices Nat)
    (r : Option (Nat × ENode)) (n : ENode) :
    (g.pick cost best r n = r ∧
      ∀ k, g.nodeCost? cost best n = some k → ∃ k' m, r = some (k', m) ∧ k' ≤ k) ∨
    ∃ k, g.nodeCost? cost best n = some k ∧ g.pick cost best r n = some (k, n) ∧
      ∀ k' m, r = some (k', m) → k < k' := by
  unfold pick
  split
  · next hn => exact .inl ⟨rfl, fun k hk => by rw [hn] at hk; cases hk⟩
  · next k hn => exact .inr ⟨k, hn, rfl, fun k' m hr => by cases hr⟩
  · next k least m hn =>
    by_cases hlt : k < least
    · rw [if_pos hlt]
      exact .inr ⟨k, hn, rfl, fun k' m hr => by cases hr; exact hlt⟩
    · rw [if_neg hlt]
      refine .inl ⟨rfl, fun k' hk' => ⟨least, m, rfl, ?_⟩⟩
      rw [hn] at hk'
      cases hk'
      exact Nat.le_of_not_lt hlt

/-- The result is a node of the list, with its cost, and no node of the list is cheaper. -/
structure Least (g : EGraph) (cost : CostFunction Nat) (best : Choices Nat) (ns : List ENode)
    (r : Option (Nat × ENode)) : Prop where
  mem : ∀ k n, r = some (k, n) → n ∈ ns ∧ g.nodeCost? cost best n = some k
  le : ∀ m ∈ ns, ∀ k', g.nodeCost? cost best m = some k' → ∃ k n, r = some (k, n) ∧ k ≤ k'

theorem least_foldl (todo done : List ENode) {r : Option (Nat × ENode)}
    (h : Least g cost best done r) :
    Least g cost best (done ++ todo) (todo.foldl (g.pick cost best) r) := by
  induction todo generalizing done r with
  | nil => simpa using h
  | cons n todo ih =>
    rw [List.foldl_cons, ← List.singleton_append, ← List.append_assoc]
    refine ih _ ?_
    obtain ⟨hpick, hn⟩ | ⟨k, hk, hpick, hless⟩ := pick_cases g cost best r n
    · rw [hpick]
      refine ⟨fun k m hr => ⟨List.mem_append_left _ (h.mem k m hr).1, (h.mem k m hr).2⟩, ?_⟩
      intro m hm k' hk'
      rcases List.mem_append.1 hm with hm | hm
      · exact h.le m hm k' hk'
      · rw [List.mem_singleton.1 hm] at hk'
        exact hn k' hk'
    · rw [hpick]
      refine ⟨fun k' m hr => ?_, fun m hm k' hk' => ⟨k, n, rfl, ?_⟩⟩
      · cases hr
        exact ⟨List.mem_append_right _ List.mem_cons_self, hk⟩
      · rcases List.mem_append.1 hm with hm | hm
        · obtain ⟨k₁, n₁, hr, hle⟩ := h.le m hm k' hk'
          exact Nat.le_trans (Nat.le_of_lt (hless k₁ n₁ hr)) hle
        · rw [List.mem_singleton.1 hm, hk] at hk'
          cases hk'
          exact Nat.le_refl k

theorem cheapest_eq_foldl (g : EGraph) (cost : CostFunction Nat) (best : Choices Nat)
    (ns : Array ENode) : g.cheapest? cost best ns = ns.toList.foldl (g.pick cost best) none := by
  rw [cheapest?, ← Array.foldl_toList]
  congr
  funext found n
  unfold pick
  cases g.nodeCost? cost best n <;> cases found <;> rfl

theorem least_cheapest (g : EGraph) (cost : CostFunction Nat) (best : Choices Nat)
    (ns : Array ENode) : Least g cost best ns.toList (g.cheapest? cost best ns) := by
  rw [cheapest_eq_foldl]
  exact least_foldl ns.toList [] ⟨fun _ _ hr => (by cases hr), fun _ hm => (by cases hm)⟩

/-- A class is improved by its cheapest node, if that costs less than the class has cost. -/
theorem improve_cases (g : EGraph) (cost : CostFunction Nat) (c : EClass) (best : Choices Nat)
    (changed : Bool) :
    (g.improve cost c best changed = (best, changed) ∧
      ∀ n ∈ c.nodes, ∀ k, g.nodeCost? cost best n = some k →
        ∃ old, best.cost? c.id = some old ∧ old ≤ k) ∨
    ∃ k n, g.cheapest? cost best c.nodes = some (k, n) ∧ n ∈ c.nodes ∧
      g.nodeCost? cost best n = some k ∧ (∀ old, best.cost? c.id = some old → k < old) ∧
      (∀ m ∈ c.nodes, ∀ k', g.nodeCost? cost best m = some k' → k ≤ k') ∧
      g.improve cost c best changed = (best.setIfInBounds c.id (some (k, n)), true) := by
  have hleast := least_cheapest g cost best c.nodes
  unfold improve
  split
  · next hnone =>
    refine .inl ⟨rfl, fun n hn k hk => ?_⟩
    obtain ⟨k', n', hr, -⟩ := hleast.le n (Array.mem_toList_iff.2 hn) k hk
    rw [hnone] at hr
    cases hr
  · next k n hsome =>
    obtain ⟨hn, hk⟩ := hleast.mem k n hsome
    have hle : ∀ m ∈ c.nodes, ∀ k', g.nodeCost? cost best m = some k' → k ≤ k' := by
      intro m hm k' hk'
      obtain ⟨k₁, n₁, hr, hle⟩ := hleast.le m (Array.mem_toList_iff.2 hm) k' hk'
      rw [hsome] at hr
      cases hr
      exact hle
    have hmem := Array.mem_toList_iff.1 hn
    cases hold : best.cost? c.id with
    | none => exact .inr ⟨k, n, hsome, hmem, hk, fun old h => (by cases h), hle, rfl⟩
    | some old =>
      by_cases hlt : k < old
      · refine .inr ⟨k, n, hsome, hmem, hk, fun old' h => ?_, hle, by simp [hlt]⟩
        cases h
        exact hlt
      · exact .inl ⟨by simp [hlt], fun m hm k' hk' =>
          ⟨old, rfl, Nat.le_trans (Nat.le_of_not_lt hlt) (hle m hm k' hk')⟩⟩

/-! ## Trees at their cost -/

/-- What a class costs, some tree of it costs. -/
def Realized (g : EGraph) (cost : CostFunction Nat) (best : Choices Nat) : Prop :=
  ∀ id k, best.cost? id = some k → ∃ t, g.Represents t id ∧ cost.tree t = k

/-- What a node costs, some tree of its class costs. -/
theorem Realized.nodeCost (hr : g.Realized cost best) (hs : g.Shape) {id : ClassId} {n : ENode}
    {k : Nat} (hn : n ∈ g.nodesAt id) (hk : g.nodeCost? cost best n = some k) :
    ∃ t, g.Represents t id ∧ cost.tree t = k := by
  obtain ⟨v, hv, rfl⟩ := nodeCost_eq_some_iff.1 hk
  have hex : ∀ a ∈ n.children, ∃ t, g.Represents t (g.find a) ∧ cost.tree t = v a :=
    fun a ha => hr _ _ (hv a ha)
  choose! f hf using hex
  refine ⟨_, represents_ofNode hn fun a ha => (hf a ha).1.of_find_eq (find_find hs a), ?_⟩
  rw [CostFunction.tree_ofNode, Node.map_map]
  exact congrArg cost (Node.map_congr fun a ha => (hf a ha).2)

/-- The class costs no more than any tree that it represents. -/
def Covered (g : EGraph) (cost : CostFunction Nat) (best : Choices Nat) (id : ClassId) : Prop :=
  ∀ t, g.Represents t id → ∃ k, best.cost? (g.find id) = some k ∧ k ≤ cost.tree t

theorem Covered.noDearer {new : Choices Nat} {id : ClassId} (h : g.Covered cost best id)
    (hnew : new.NoDearer best) : g.Covered cost new id := by
  intro t ht
  obtain ⟨k, hk, hle⟩ := h t ht
  obtain ⟨k', hk', hle'⟩ := hnew _ k hk
  exact ⟨k', hk', Nat.le_trans hle' hle⟩

theorem Covered.of_find_eq {a b : ClassId} (h : g.Covered cost best a)
    (hab : g.find a = g.find b) : g.Covered cost best b := by
  intro t ht
  rw [← hab]
  exact h t (ht.of_find_eq hab.symm)

open Classical in
/-- The classes that have no cost yet, or cost more than one of their trees. -/
noncomputable def uncovered (g : EGraph) (cost : CostFunction Nat) (best : Choices Nat) :
    Finset ClassId :=
  g.roots.filter fun id => ¬ g.Covered cost best id

theorem mem_uncovered {id : ClassId} :
    id ∈ g.uncovered cost best ↔ id ∈ g.roots ∧ ¬ g.Covered cost best id := by
  classical
  exact Finset.mem_filter

theorem card_uncovered_le (g : EGraph) (cost : CostFunction Nat) (best : Choices Nat) :
    (g.uncovered cost best).card ≤ g.classList.length := by
  classical
  exact Nat.le_trans (Finset.card_filter_le _ _) (card_roots_le g)

theorem covered_of_uncovered (hs : g.Shape) (hw : g.uncovered cost best = ∅) (id : ClassId) :
    g.Covered cost best id := by
  intro t ht
  obtain ⟨q, -, hq, -⟩ := represents_iff.1 ht
  have hroot : g.find id ∈ g.roots :=
    (mem_roots hs).2 ⟨find_lt hs (lt_of_mem_nodesAt hs hq), find_find hs id⟩
  have hcovered : g.Covered cost best (g.find id) := by
    by_contra hnot
    have hmem := mem_uncovered.2 ⟨hroot, hnot⟩
    rw [hw] at hmem
    exact Finset.notMem_empty _ hmem
  exact hcovered.of_find_eq (find_find hs id) t ht

/-- While some class is uncovered, a node brings one to its least cost. -/
theorem exists_ready (hs : g.Shape) (hc : cost.Above) (hm : cost.Monotone)
    (hw : (g.uncovered cost best).Nonempty) :
    ∃ c ∈ g.classList, ¬ g.Covered cost best c.id ∧ ∃ n ∈ c.nodes, ∃ k,
      g.nodeCost? cost best n = some k ∧ ∀ t, g.Represents t c.id →
        k ≤ cost.tree t ∨ ∃ k', best.cost? c.id = some k' ∧ k' ≤ cost.tree t := by
  let short : Set (Tree × ClassId) := fun p =>
    g.Represents p.1 p.2 ∧ ¬ ∃ k, best.cost? (g.find p.2) = some k ∧ k ≤ cost.tree p.1
  have hshort : short.Nonempty := by
    obtain ⟨id, hid⟩ := hw
    have hnot := (mem_uncovered.1 hid).2
    unfold Covered at hnot
    push Not at hnot
    obtain ⟨t, ht, hless⟩ := hnot
    refine ⟨(t, id), ht, ?_⟩
    rintro ⟨k, hk, hle⟩
    exact absurd hle (Nat.not_le_of_lt (hless k hk))
  -- the cheapest tree that its class costs more than, and of those the smallest
  obtain ⟨⟨t, id⟩, ⟨ht, hnot⟩, hmin⟩ := WellFounded.has_min
    (InvImage.wf (fun p : Tree × ClassId => toLex (cost.tree p.1, p.1.size)) wellFounded_lt)
    short hshort
  obtain ⟨q, rfl, hq, hchild⟩ := represents_iff.1 ht
  have hcosts : ∀ p ∈ q.children, ∃ k, best.cost? (g.find p.2) = some k ∧ k ≤ cost.tree p.1 := by
    intro p hp
    by_contra hp'
    have hmem : p.1 ∈ (q.map Prod.fst).children := Node.mem_children_map Prod.fst hp
    refine hmin p ⟨hchild p hp, hp'⟩ (Prod.Lex.toLex_lt_toLex.2 ?_)
    exact (Nat.lt_or_eq_of_le (hc.tree_le hmem)).imp_right fun heq =>
      ⟨heq, Tree.size_lt_of_mem hmem⟩
  choose! v hv using hcosts
  have hkq : g.nodeCost? cost best (q.map Prod.snd) =
      some (cost ((q.map Prod.snd).map fun a => (best.cost? (g.find a)).getD 0)) := by
    refine nodeCost_eq_some_iff.2 ⟨_, Node.forall_mem_children_map.2 fun p hp => ?_, rfl⟩
    rw [(hv p hp).1, Option.getD_some]
  have hle : cost ((q.map Prod.snd).map fun a => (best.cost? (g.find a)).getD 0) ≤
      cost.tree (.ofNode (q.map Prod.fst)) := by
    rw [CostFunction.tree_ofNode, Node.map_map, Node.map_map]
    refine hm.map_le fun p hp => ?_
    show (best.cost? (g.find p.2)).getD 0 ≤ _
    rw [(hv p hp).1, Option.getD_some]
    exact (hv p hp).2
  obtain ⟨c, hstored, hmem⟩ := mem_nodesAt.1 hq
  have hid : c.id = g.find id := hs.id_eq _ c hstored
  have hfind : g.find c.id = g.find id := by rw [hid, find_find hs]
  refine ⟨c, mem_classList.2 ⟨_, hstored⟩, fun hcovered => ?_, _, hmem, _, hkq, fun t ht => ?_⟩
  · exact hnot ((hcovered.of_find_eq hfind) _ ht)
  · by_cases hcase : ∃ k, best.cost? c.id = some k ∧ k ≤ cost.tree t
    · exact .inr hcase
    · refine .inl (Nat.le_trans hle ?_)
      by_contra hlt
      refine hmin (t, id) ⟨ht.of_find_eq hfind, by rwa [← hid]⟩ (Prod.Lex.toLex_lt_toLex.2 ?_)
      exact .inl (Nat.lt_of_not_le hlt)

/-! ## Passes -/

theorem size_improve (c : EClass) (changed : Bool) :
    (g.improve cost c best changed).1.size = best.size := by
  obtain ⟨heq, -⟩ | ⟨k, n, -, -, -, -, -, heq⟩ := improve_cases g cost c best changed
  · rw [heq]
  · rw [heq, Array.size_setIfInBounds]

theorem choice_set {id : ClassId} (hid : id < best.size) (x : Nat × ENode) (j : ClassId) :
    Choices.choice? (best.setIfInBounds id (some x)) j =
      if j = id then some x else best.choice? j := by
  rw [Choices.choice?, Array.getElem?_setIfInBounds]
  by_cases h : j = id
  · subst h
    simp [hid]
  · rw [if_neg (Ne.symm h), if_neg h]
    rfl

/-- What is recorded after a choice is that choice, or was recorded before. -/
theorem choice_set_cases {id : ClassId} {x y : Nat × ENode} {j : ClassId}
    (h : Choices.choice? (best.setIfInBounds id (some x)) j = some y) :
    (id = j ∧ x = y) ∨ best.choice? j = some y := by
  rw [Choices.choice?, Array.getElem?_setIfInBounds] at h
  split at h
  · next hid =>
    split at h
    · exact .inl ⟨hid, Option.some.inj h⟩
    · cases h
  · exact .inr h

theorem cost_set {id : ClassId} (hid : id < best.size) (k : Nat) (n : ENode) (j : ClassId) :
    Choices.cost? (best.setIfInBounds id (some (k, n))) j =
      if j = id then some k else best.cost? j := by
  rw [Choices.cost?, choice_set hid]
  split
  · rfl
  · rfl

/-- A class that has been improved costs no more than its nodes did. -/
theorem cost_improve_le {c : EClass} (hid : c.id < best.size) {n : ENode} (hn : n ∈ c.nodes)
    {k : Nat} (hk : g.nodeCost? cost best n = some k) (changed : Bool) :
    ∃ k', (g.improve cost c best changed).1.cost? c.id = some k' ∧ k' ≤ k := by
  obtain ⟨heq, h⟩ | ⟨k', m, -, -, -, -, hle, heq⟩ := improve_cases g cost c best changed
  · obtain ⟨old, hold, hle⟩ := h n hn k hk
    exact ⟨old, by rw [heq, hold], hle⟩
  · exact ⟨k', by rw [heq, cost_set hid, if_pos rfl], hle n hn k hk⟩

theorem size_improveAll (g : EGraph) (cost : CostFunction Nat) (cs : List EClass)
    (best : Choices Nat) (changed : Bool) :
    (g.improveAll cost cs best changed).1.size = best.size := by
  induction cs generalizing best changed with
  | nil => rfl
  | cons c cs ih =>
    rw [improveAll]
    exact (ih _ _).trans (size_improve c changed)

theorem cost_improveAll_le (hm : cost.Monotone) {cs : List EClass} {c : EClass} (hmem : c ∈ cs)
    (hid : c.id < best.size) {n : ENode} (hn : n ∈ c.nodes) {k : Nat}
    (hk : g.nodeCost? cost best n = some k) (changed : Bool) :
    ∃ k', (g.improveAll cost cs best changed).1.cost? c.id = some k' ∧ k' ≤ k := by
  induction cs generalizing best k changed with
  | nil => cases hmem
  | cons d cs ih =>
    rw [improveAll]
    rcases List.mem_cons.1 hmem with rfl | hmem
    · obtain ⟨k', hk', hle⟩ := cost_improve_le hid hn hk changed
      obtain ⟨k'', hk'', hle'⟩ := noDearer_improveAll g cost cs _ _ _ _ hk'
      exact ⟨k'', hk'', Nat.le_trans hle' hle⟩
    · obtain ⟨k', hk', hle⟩ :=
        nodeCost_of_noDearer hm (noDearer_improve g cost d best changed) hk
      obtain ⟨k'', hk'', hle'⟩ := ih hmem (by rw [size_improve]; exact hid) hk' _
      exact ⟨k'', hk'', Nat.le_trans hle' hle⟩

/-- A pass that lowers nothing leaves the choices as they are. -/
theorem improveAll_eq_of_unchanged (cs : List EClass) {new : Choices Nat} {changed : Bool}
    (h : g.improveAll cost cs best changed = (new, false)) : new = best ∧ changed = false := by
  induction cs generalizing best changed with
  | nil =>
    cases h
    exact ⟨rfl, rfl⟩
  | cons c cs ih =>
    rw [improveAll] at h
    obtain ⟨heq, -⟩ | ⟨k, n, -, -, -, -, -, heq⟩ := improve_cases g cost c best changed
    · rw [heq] at h
      exact ih h
    · rw [heq] at h
      cases (ih h).2

/-- A pass brings one more class to its least cost, as long as there is one. -/
theorem card_uncovered_lt (hs : g.Shape) (hc : cost.Above) (hm : cost.Monotone)
    (hsize : best.size = g.classes.size) (hw : (g.uncovered cost best).Nonempty) :
    (g.uncovered cost (g.improveAll cost g.classList best false).1).card <
      (g.uncovered cost best).card := by
  have hkeep := noDearer_improveAll g cost g.classList best false
  obtain ⟨c, hmem, hnot, n, hn, k, hk, hleast⟩ := exists_ready hs hc hm hw
  have hstored := stored_of_mem_classList hs hmem
  have hlt : c.id < best.size := by
    rw [hsize, hs.size_classes]
    exact lt_of_stored hs hstored
  obtain ⟨k', hk', hle⟩ := cost_improveAll_le hm hmem hlt hn hk false
  have hcovered : g.Covered cost (g.improveAll cost g.classList best false).1 c.id := by
    intro t ht
    rw [find_of_stored hs hstored]
    rcases hleast t ht with hkt | ⟨old, hold, hle'⟩
    · exact ⟨k', hk', Nat.le_trans hle hkt⟩
    · obtain ⟨k'', hk'', hle''⟩ := hkeep _ old hold
      exact ⟨k'', hk'', Nat.le_trans hle'' hle'⟩
  have hroot : c.id ∈ g.roots := List.mem_toFinset.2 (List.mem_map.2 ⟨c, hmem, rfl⟩)
  refine Finset.card_lt_card ⟨fun id hid => ?_, fun hsub => ?_⟩
  · obtain ⟨hid, hnew⟩ := mem_uncovered.1 hid
    exact mem_uncovered.2 ⟨hid, fun hold => hnew (hold.noDearer hkeep)⟩
  · exact (mem_uncovered.1 (hsub (mem_uncovered.2 ⟨hroot, hnot⟩))).2 hcovered

/-- More passes than classes that are not at their least cost are enough. -/
theorem uncovered_settleCosts (hs : g.Shape) (hc : cost.Above) (hm : cost.Monotone) (fuel : Nat)
    {best : Choices Nat} (hsize : best.size = g.classes.size)
    (hfuel : (g.uncovered cost best).card < fuel) :
    g.uncovered cost (g.settleCosts cost g.classList fuel best) = ∅ := by
  induction fuel generalizing best with
  | zero => exact absurd hfuel (Nat.not_lt_zero _)
  | succ fuel ih =>
    rcases (g.uncovered cost best).eq_empty_or_nonempty with hw | hw
    · rw [Finset.eq_empty_iff_forall_notMem]
      intro id hid
      obtain ⟨-, hnot⟩ := mem_uncovered.1 hid
      exact hnot ((covered_of_uncovered hs hw id).noDearer
        (noDearer_settleCosts g cost g.classList (fuel + 1) best))
    · have hlt := card_uncovered_lt hs hc hm hsize hw
      have hsize' := size_improveAll g cost g.classList best false
      rw [settleCosts]
      split
      · next new heq =>
        rw [heq] at hlt hsize'
        exact ih (hsize'.trans hsize) (by dsimp only at hlt; omega)
      · next new heq =>
        rw [heq, (improveAll_eq_of_unchanged _ heq).1] at hlt
        exact absurd hlt (Nat.lt_irrefl _)

/-- What every cheaper choice keeps, all passes keep. -/
theorem settleCosts_ind {P : Choices Nat → Prop} (hs : g.Shape)
    (hstep : ∀ c best k n, g.stored? c.id = some c → P best →
      g.cheapest? cost best c.nodes = some (k, n) → (∀ old, best.cost? c.id = some old → k < old) →
      P (best.setIfInBounds c.id (some (k, n)))) (fuel : Nat) {best : Choices Nat} (h : P best) :
    P (g.settleCosts cost g.classList fuel best) := by
  have hpass : ∀ cs : List EClass, (∀ c ∈ cs, c ∈ g.classList) → ∀ best changed, P best →
      P (g.improveAll cost cs best changed).1 := by
    intro cs hcs
    induction cs with
    | nil => exact fun best changed h => h
    | cons c cs ih =>
      intro best changed h
      have hstored := stored_of_mem_classList hs (hcs c List.mem_cons_self)
      have hrest : ∀ d ∈ cs, d ∈ g.classList := fun d hd => hcs d (List.mem_cons_of_mem c hd)
      rw [improveAll]
      obtain ⟨heq, -⟩ | ⟨k, n, hcheap, -, -, hless, -, heq⟩ := improve_cases g cost c best changed
      · rw [heq]
        exact ih hrest best changed h
      · rw [heq]
        exact ih hrest _ true (hstep c best k n hstored h hcheap hless)
  induction fuel generalizing best with
  | zero => exact h
  | succ fuel ih =>
    have hone := hpass g.classList (fun _ hc => hc) best false h
    rw [settleCosts]
    split
    · next new heq =>
      rw [heq] at hone
      exact ih hone
    · next new heq => rwa [heq] at hone

/-- Classes that cost what some tree costs, and no more than any, do not change any more. -/
theorem improveAll_of_covered (hs : g.Shape) (hr : g.Realized cost best)
    (hw : ∀ id, g.Covered cost best id) {cs : List EClass} (hcs : ∀ c ∈ cs, c ∈ g.classList)
    (changed : Bool) : g.improveAll cost cs best changed = (best, changed) := by
  induction cs with
  | nil => rfl
  | cons c cs ih =>
    rw [improveAll]
    obtain ⟨heq, -⟩ | ⟨k, n, -, hn, hk, hless, -, -⟩ := improve_cases g cost c best changed
    · rw [heq]
      exact ih fun d hd => hcs d (List.mem_cons_of_mem c hd)
    · have hstored := stored_of_mem_classList hs (hcs c List.mem_cons_self)
      obtain ⟨t, ht, rfl⟩ := hr.nodeCost hs ((mem_nodesAt_of_stored hs hstored).2 hn) hk
      obtain ⟨old, hold, hle⟩ := hw c.id t ht
      rw [find_of_stored hs hstored] at hold
      exact absurd hle (Nat.not_le_of_lt (hless old hold))

/-- Passes that follow others go on where those have stopped. -/
theorem settleCosts_add (g : EGraph) (cost : CostFunction Nat) (cs : List EClass) (m n : Nat)
    (best : Choices Nat) :
    g.settleCosts cost cs (m + n) best =
      g.settleCosts cost cs n (g.settleCosts cost cs m best) := by
  induction m generalizing best with
  | zero => rw [Nat.zero_add, settleCosts]
  | succ m ih =>
    rw [Nat.succ_add, settleCosts, settleCosts]
    cases hpass : g.improveAll cost cs best false with
    | mk new changed =>
      cases changed with
      | true => exact ih new
      | false =>
        obtain ⟨rfl, -⟩ := improveAll_eq_of_unchanged cs hpass
        cases n with
        | zero => rfl
        | succ n =>
          dsimp only
          rw [settleCosts, hpass]

end EGraph

end EqSat
