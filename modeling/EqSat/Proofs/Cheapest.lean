import EqSat.Proofs.Extraction
import EqSat.Proofs.Reachable

/-!
# Cheapest terms

On every reachable graph that has been rebuilt, an extraction ends and finds for each class a term
that costs what is reported, and no tree of the class costs less.  The graph may be cyclic, and
nodes may cost nothing over what their children cost.

    Reached.cheapest      extraction from a reachable graph
-/

namespace EqSat.EGraph

variable {g : EGraph} {cost : CostFunction Nat} {id : ClassId}

/-- The loops of an extraction end by themselves: the passes with one that changes nothing, and
the layout of a class above the classes that its chosen node needs. -/
structure LoopsEnd (g : EGraph) (cost : CostFunction Nat) : Prop where
  last : g.improveAll cost g.classList (g.choices cost) false = (g.choices cost, false)
  passes : ∀ fuel, g.classList.length < fuel → g.settleCosts cost g.classList fuel
    (Array.replicate g.classes.size none) = g.choices cost
  layout : ∀ id fuel l, id < g.size → g.numClasses < fuel →
    g.layOut (g.choices cost) fuel l id = g.layOut (g.choices cost) (g.numClasses + 1) l id

theorem loopsEnd (hg : g.Grounded) (hc : cost.Above) (hm : cost.Monotone) : g.LoopsEnd cost where
  last := improveAll_choices hg.shape hc hm
  passes := fun _ hfuel => settleCosts_eq_choices hg.shape hc hm hfuel
  layout := by
    intro id fuel l hid hfuel
    obtain ⟨height, hb⟩ := chosen_choices hg hc hm
    obtain ⟨k, n, hn⟩ := hb.total id hid
    have hbound := hb.bound _ k n hn
    rw [numClasses_eq] at hfuel ⊢
    exact layOut_eq_of_height hg hb hid (Nat.lt_trans hbound hfuel) (Nat.lt_succ_of_lt hbound)

/-- The cost that is reported is that of the class. -/
theorem cost_of_extract {e : Extracted Nat} (h : g.extract cost id = .ok e) :
    (g.choices cost).cost? (g.find id) = some e.cost := by
  unfold extract at h
  split at h
  · dsimp only at h
    cases hbest : (g.choices cost).choice? (g.find id) with
    | none =>
      rw [hbest] at h
      cases h
    | some kn =>
      rw [hbest] at h
      cases h
      exact cost_of_choice hbest
  · cases h

/-- **Cheapest terms.**  On a rebuilt graph that calls can reach, and for a cost function that is
monotone and never below the cost of a child, extraction ends.  Every class has a cost, which is
the least cost of the trees that it represents, and the term that is found has this cost. -/
theorem Reached.cheapest {analysis : Analysis} (h : Reached analysis g) (hclean : g.clean = true)
    (hc : cost.Above) (hm : cost.Monotone) :
    g.LoopsEnd cost ∧ ∀ id, id < g.size → ∃ e u, g.extract cost id = .ok e ∧
      (g.choices cost).cost? (g.find id) = some e.cost ∧
      e.term.tree? = some u ∧ g.Represents u id ∧ cost.tree u = e.cost ∧
      ∀ v, g.Represents v id → e.cost ≤ cost.tree v := by
  have hg := h.backed.toGrounded
  refine ⟨loopsEnd hg hc hm, fun id hid => ?_⟩
  obtain ⟨e, u, hrun, htree, hrep, hcost, hleast⟩ := extract_cheapest hg hclean hc hm hid
  exact ⟨e, u, hrun, cost_of_extract hrun, htree, hrep, hcost, hleast⟩

/-- The graph of a variable that is equal to itself under a plus. -/
def selfLoop : EGraph :=
  left (rebuild (left (union 1 0 (left (add (.unary .plus 0)
    (left (add (.leaf (.var "x")) (empty .constantFolding))))))))

/-- Where a plus costs nothing, the variable is chosen all the same, and not the plus around it. -/
theorem cheapest_selfLoop :
    Reached .constantFolding selfLoop ∧ selfLoop.clean = true ∧
      (CostFunction.weighted [("+", 0)]).Above ∧ (CostFunction.weighted [("+", 0)]).Monotone ∧
      selfLoop.nodesAt 1 = [.leaf (.var "x"), .unary .plus 0] ∧
      selfLoop.LoopsEnd (.weighted [("+", 0)]) ∧
      ∃ e u, selfLoop.extract (.weighted [("+", 0)]) 1 = .ok e ∧ e.head = .leaf (.var "x") ∧
        e.term.tree? = some u ∧ selfLoop.Represents u 1 ∧
        (CostFunction.weighted [("+", 0)]).tree u = e.cost := by
  have hreached : Reached .constantFolding selfLoop := by
    refine Reached.rebuild (.union (.add (.add .empty (.leaf (.var "x")) ?_) _ ?_) 1 0 ?_ ?_)
    all_goals decide +kernel
  have hclean : selfLoop.clean = true := by decide +kernel
  have hc := CostFunction.above_weighted [("+", 0)]
  have hm := CostFunction.monotone_weighted [("+", 0)]
  obtain ⟨hends, hall⟩ := hreached.cheapest hclean hc hm
  obtain ⟨e, u, hrun, -, htree, hrep, hcost, -⟩ := hall 1 (by decide +kernel)
  have hhead : (selfLoop.extract (.weighted [("+", 0)]) 1).toOption.map (·.head) =
      some (.leaf (.var "x")) := by decide +kernel
  rw [hrun] at hhead
  exact ⟨hreached, hclean, hc, hm, by decide +kernel, hends, e, u, hrun, Option.some.inj hhead,
    htree, hrep, hcost⟩

end EqSat.EGraph
