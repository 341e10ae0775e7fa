import EqSat.Proofs.Passes

/-!
# The choices of an extraction

A chosen node costs at least what its children cost.  Where it costs as much as a child, the
child's node was chosen earlier, so no class is spelled by way of itself.  Its children may have
become cheaper since it was chosen, but the node has not: at the end its class has the least cost.

    ranked_settleCosts     a chosen node is dearer than its children, or newer
    chosen_choices         chosen nodes are cheapest, and can be laid out from the bottom up
    improveAll_choices     the last pass changes nothing
-/

namespace EqSat

namespace EGraph

variable {g : EGraph} {cost : CostFunction Nat} {best : Choices Nat}

/-! ## Chosen nodes -/

/-- The class `a` costs less than `k`, or as much and was chosen before time `t`. -/
def Precedes (best : Choices Nat) (time : ClassId → Nat) (a : ClassId) (k t : Nat) : Prop :=
  ∃ ka, best.cost? a = some ka ∧ (ka < k ∨ ka = k ∧ time a < t)

/-- Every choice is a node of its class, made at a time of its own, over classes that precede.
The node may have become cheaper since. -/
structure Ranked (g : EGraph) (cost : CostFunction Nat) (best : Choices Nat)
    (time : ClassId → Nat) (now : Nat) : Prop where
  size : best.size = g.classes.size
  node : ∀ id k n, best.choice? id = some (k, n) → ∃ c, g.stored? id = some c ∧ n ∈ c.nodes
  lt : ∀ id k n, best.choice? id = some (k, n) → time id < now
  below : ∀ id k n, best.choice? id = some (k, n) →
    ∀ a ∈ n.children, Precedes best time (g.find a) k (time id)
  recorded : ∀ id k n, best.choice? id = some (k, n) →
    ∃ k', g.nodeCost? cost best n = some k' ∧ k' ≤ k
  realized : g.Realized cost best

theorem cost_of_choice {id : ClassId} {k : Nat} {n : ENode}
    (h : best.choice? id = some (k, n)) : best.cost? id = some k := by
  rw [Choices.cost?, h, Option.map_some]

theorem exists_choice {id : ClassId} {k : Nat} (h : best.cost? id = some k) :
    ∃ n, best.choice? id = some (k, n) := by
  obtain ⟨⟨k', n⟩, hn, rfl⟩ := Option.map_eq_some_iff.1 h
  exact ⟨n, hn⟩

/-- A choice made now, cheaper than the one before it, keeps the ranks. -/
theorem ranked_set {time : ClassId → Nat} {now : Nat} (hs : g.Shape)
    (h : g.Ranked cost best time now) (hc : cost.Above) (hm : cost.Monotone) {c : EClass}
    (hstored : g.stored? c.id = some c) {k : Nat} {n : ENode} (hn : n ∈ c.nodes)
    (hk : g.nodeCost? cost best n = some k)
    (hless : ∀ old, best.cost? c.id = some old → k < old) :
    g.Ranked cost (best.setIfInBounds c.id (some (k, n))) (Function.update time c.id now)
      (now + 1) := by
  have hlt : c.id < best.size := by
    rw [h.size, hs.size_classes]
    exact lt_of_stored hs hstored
  have hnew : Choices.NoDearer (best.setIfInBounds c.id (some (k, n))) best :=
    Choices.noDearer_set n fun old hold => Nat.le_of_lt (hless old hold)
  -- what preceded still does: the class itself has become cheaper
  have hkeep : ∀ a k' t, Precedes best time a k' t → Precedes
      (best.setIfInBounds c.id (some (k, n))) (Function.update time c.id now) a k' t := by
    rintro a k' t ⟨ka, hka, hrank⟩
    by_cases ha : a = c.id
    · subst ha
      have := hless ka hka
      exact ⟨k, by rw [cost_set hlt, if_pos rfl], .inl (by omega)⟩
    · refine ⟨ka, by rw [cost_set hlt, if_neg ha, hka], ?_⟩
      rwa [Function.update_of_ne ha]
  have hcase : ∀ id k' m, Choices.choice? (best.setIfInBounds c.id (some (k, n))) id =
      some (k', m) → id = c.id ∧ k' = k ∧ m = n ∨ id ≠ c.id ∧ best.choice? id = some (k', m) := by
    intro id k' m hm
    rw [choice_set hlt] at hm
    split at hm
    · next hid =>
      cases hm
      exact .inl ⟨hid, rfl, rfl⟩
    · next hid => exact .inr ⟨hid, hm⟩
  refine ⟨by rw [Array.size_setIfInBounds, h.size], ?_, ?_, ?_, ?_, ?_⟩
  · intro id k' m hchoice
    obtain ⟨rfl, rfl, rfl⟩ | ⟨-, hold⟩ := hcase id k' m hchoice
    · exact ⟨c, hstored, hn⟩
    · exact h.node id k' m hold
  · intro id k' m hchoice
    obtain ⟨rfl, rfl, rfl⟩ | ⟨hid, hold⟩ := hcase id k' m hchoice
    · rw [Function.update_self]
      exact Nat.lt_succ_self now
    · rw [Function.update_of_ne hid]
      exact Nat.lt_succ_of_lt (h.lt id k' m hold)
  · intro id k' m hchoice a ha
    obtain ⟨rfl, rfl, rfl⟩ | ⟨hid, hold⟩ := hcase id k' m hchoice
    · rw [Function.update_self]
      refine hkeep _ _ _ ?_
      obtain ⟨ka, hka, hle⟩ := costs_of_nodeCost hc hk a ha
      obtain ⟨na, hna⟩ := exists_choice hka
      exact ⟨ka, hka, (Nat.lt_or_eq_of_le hle).imp_right fun heq => ⟨heq, h.lt _ ka na hna⟩⟩
    · rw [Function.update_of_ne hid]
      exact hkeep _ _ _ (h.below id k' m hold a ha)
  · intro id k' m hchoice
    obtain ⟨rfl, rfl, rfl⟩ | ⟨-, hold⟩ := hcase id k' m hchoice
    · exact nodeCost_of_noDearer hm hnew hk
    · obtain ⟨k₁, hk₁, hle₁⟩ := h.recorded id k' m hold
      obtain ⟨k₂, hk₂, hle₂⟩ := nodeCost_of_noDearer hm hnew hk₁
      exact ⟨k₂, hk₂, Nat.le_trans hle₂ hle₁⟩
  · intro id k' hk'
    rw [cost_set hlt] at hk'
    split at hk'
    · next hid =>
      cases hk'
      rw [hid]
      exact h.realized.nodeCost hs ((mem_nodesAt_of_stored hs hstored).2 hn) hk
    · exact h.realized id k' hk'

theorem ranked_settleCosts (hs : g.Shape) (hc : cost.Above) (hm : cost.Monotone) (fuel : Nat)
    {best : Choices Nat} {time : ClassId → Nat} {now : Nat} (h : g.Ranked cost best time now) :
    ∃ time' now', g.Ranked cost (g.settleCosts cost g.classList fuel best) time' now' := by
  refine settleCosts_ind (P := fun best => ∃ time now, g.Ranked cost best time now) hs ?_ fuel
    ⟨time, now, h⟩
  rintro c best k n hstored ⟨time, now, h⟩ hcheap hless
  obtain ⟨hn, hk⟩ := (least_cheapest g cost best c.nodes).mem k n hcheap
  exact ⟨_, _, ranked_set hs h hc hm hstored (Array.mem_toList_iff.1 hn) hk hless⟩

/-- Every class has a node of its own chosen, at the least cost of the trees it represents, and
chosen nodes stand higher than the classes of their children. -/
structure Chosen (g : EGraph) (cost : CostFunction Nat) (best : Choices Nat)
    (height : ClassId → Nat) : Prop where
  total : ∀ id, id < g.size → ∃ k n, best.choice? (g.find id) = some (k, n)
  node : ∀ id k n, best.choice? id = some (k, n) → ∃ c, g.stored? id = some c ∧ n ∈ c.nodes
  exact : ∀ id k n, best.choice? id = some (k, n) → g.nodeCost? cost best n = some k
  least : ∀ id k n, best.choice? id = some (k, n) → ∀ t, g.Represents t id → k ≤ cost.tree t
  lower : ∀ id k n, best.choice? id = some (k, n) →
    ∀ a ∈ n.children, height (g.find a) < height id
  bound : ∀ id k n, best.choice? id = some (k, n) → height id < g.classList.length

/-- The classes that precede a class are fewer than all classes. -/
theorem exists_chosen (hg : g.Grounded) {time : ClassId → Nat} {now : Nat}
    (h : g.Ranked cost best time now) (hw : ∀ id, g.Covered cost best id) :
    ∃ height, g.Chosen cost best height := by
  classical
  have hs := hg.shape
  let before (id : ClassId) : Finset ClassId :=
    g.roots.filter fun a => ∃ k, best.cost? id = some k ∧ Precedes best time a k (time id)
  have hroot : ∀ id k n, best.choice? id = some (k, n) → id ∈ g.roots ∧ id ∉ before id := by
    intro id k n hn
    have hcost : best.cost? id = some k := cost_of_choice hn
    obtain ⟨c, hc, -⟩ := h.node id k n hn
    refine ⟨(mem_roots hs).2 ((hs.stored_iff id).1 ⟨c, hc⟩), fun hmem => ?_⟩
    obtain ⟨-, k₁, hk₁, k₂, hk₂, hrank⟩ := Finset.mem_filter.1 hmem
    rw [hcost] at hk₁ hk₂
    cases hk₁
    cases hk₂
    omega
  have hleast : ∀ id k n, best.choice? id = some (k, n) →
      ∀ t, g.Represents t id → k ≤ cost.tree t := by
    intro id k n hn t ht
    obtain ⟨c, hc, -⟩ := h.node id k n hn
    obtain ⟨k', hk', hle⟩ := hw id t ht
    rw [find_of_stored hs hc, cost_of_choice hn] at hk'
    cases hk'
    exact hle
  refine ⟨fun id => (before id).card, fun id hid => ?_, h.node, fun id k n hn => ?_, hleast, ?_, ?_⟩
  · obtain ⟨t, ht⟩ := hg.tree id hid
    obtain ⟨k, hk, -⟩ := hw id t ht
    exact ⟨k, exists_choice hk⟩
  · -- the node has not become cheaper, as some tree of the class costs what it does
    obtain ⟨c, hc, hmem⟩ := h.node id k n hn
    obtain ⟨k', hk', hle⟩ := h.recorded id k n hn
    obtain ⟨t, ht, rfl⟩ := h.realized.nodeCost hs ((mem_nodesAt_of_stored hs hc).2 hmem) hk'
    rw [hk', Nat.le_antisymm hle (hleast id k n hn t ht)]
  · intro id k n hn a ha
    have hcost : best.cost? id = some k := cost_of_choice hn
    obtain ⟨ka, hka, hrank⟩ := h.below id k n hn a ha
    obtain ⟨na, hna⟩ := exists_choice hka
    obtain ⟨haroot, hanot⟩ := hroot _ ka na hna
    refine Finset.card_lt_card ⟨?_, fun hsub => ?_⟩
    · intro b hb
      obtain ⟨hbroot, k₁, hk₁, kb, hkb, hrank'⟩ := Finset.mem_filter.1 hb
      rw [hka] at hk₁
      cases hk₁
      exact Finset.mem_filter.2 ⟨hbroot, k, hcost, kb, hkb, by omega⟩
    · exact hanot (hsub (Finset.mem_filter.2 ⟨haroot, k, hcost, ka, hka, hrank⟩))
  · intro id k n hn
    obtain ⟨hmem, hnot⟩ := hroot id k n hn
    refine Nat.lt_of_lt_of_le (Finset.card_lt_card ⟨Finset.filter_subset _ _, fun hsub => ?_⟩)
      (card_roots_le g)
    exact hnot (hsub hmem)

/-- Before the first pass nothing is chosen. -/
theorem ranked_replicate (g : EGraph) (cost : CostFunction Nat) :
    g.Ranked cost (Array.replicate g.classes.size none) (fun _ => 0) 0 := by
  have hnone : ∀ id, Choices.choice? (Array.replicate g.classes.size none : Choices Nat) id =
      none := by
    intro id
    rw [Choices.choice?, Array.getElem?_replicate]
    split <;> rfl
  refine ⟨Array.size_replicate, ?_, ?_, ?_, ?_, ?_⟩
  case refine_5 =>
    intro id k hk
    rw [Choices.cost?, hnone] at hk
    cases hk
  all_goals
    intro id k n hn
    rw [hnone] at hn
    cases hn

/-- Within the passes of an extraction all classes come to their least cost. -/
theorem covered_choices (hs : g.Shape) (hc : cost.Above) (hm : cost.Monotone) (id : ClassId) :
    g.Covered cost (g.choices cost) id :=
  covered_of_uncovered hs (uncovered_settleCosts hs hc hm _ Array.size_replicate
    (Nat.lt_succ_of_le (card_uncovered_le g cost _))) id

/-- **The choices** of an extraction are cheapest, and can be laid out from the bottom up. -/
theorem chosen_choices (hg : g.Grounded) (hc : cost.Above) (hm : cost.Monotone) :
    ∃ height, g.Chosen cost (g.choices cost) height := by
  obtain ⟨time, now, hr⟩ :=
    ranked_settleCosts hg.shape hc hm (g.classList.length + 1) (ranked_replicate g cost)
  exact exists_chosen hg hr (covered_choices hg.shape hc hm)

/-- **The passes** of an extraction end with one that changes nothing. -/
theorem improveAll_choices (hs : g.Shape) (hc : cost.Above) (hm : cost.Monotone) :
    g.improveAll cost g.classList (g.choices cost) false = (g.choices cost, false) := by
  obtain ⟨time, now, hr⟩ :=
    ranked_settleCosts hs hc hm (g.classList.length + 1) (ranked_replicate g cost)
  exact improveAll_of_covered hs hr.realized (covered_choices hs hc hm) (fun _ hc => hc) false

/-- More passes would change nothing either. -/
theorem settleCosts_eq_choices (hs : g.Shape) (hc : cost.Above) (hm : cost.Monotone) {fuel : Nat}
    (hfuel : g.classList.length < fuel) :
    g.settleCosts cost g.classList fuel (Array.replicate g.classes.size none) =
      g.choices cost := by
  obtain ⟨more, rfl⟩ := Nat.exists_eq_add_of_le hfuel
  rw [settleCosts_add]
  show g.settleCosts cost g.classList more (g.choices cost) = g.choices cost
  cases more with
  | zero => rfl
  | succ more => rw [settleCosts, improveAll_choices hs hc hm]

end EGraph

end EqSat
