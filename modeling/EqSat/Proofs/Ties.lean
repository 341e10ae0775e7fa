import EqSat.Proofs.Cheapest
import EqSat.Proofs.Operations
import Mathlib.Data.List.Find

/-!
# Ties

Where several nodes of a class are cheapest, the one that is chosen need not be the first that the
class lists.  A node is compared at the costs that its children have when the turn of its class
comes.  The class has its final cost as soon as one of the cheapest nodes shows it, and the choice
made then is never given up for a node that is no cheaper.  So the first is chosen among those
cheapest nodes that show their cost in the earliest pass, and a child shows its cost in the same
pass if its class stands before.

    find_cheapest         the first of the cheapest nodes is picked, at the costs of the time
    exists_turn           the costs that a class sees in a pass
    choice_soonest        the node that is chosen
    Operated.extract_soonest    when this is the first of the cheapest nodes
-/

namespace EqSat

namespace EGraph

variable {g : EGraph} {cost : CostFunction Nat} {best : Choices Nat} {id a : ClassId} {c : EClass}
  {n : ENode} {k p : Nat}

/-! ## The first of the cheapest nodes -/

/-- What is picked was there before, or is the first at its cost, below what was there. -/
theorem find_of_foldl_pick {ns : List ENode} {r : Option (Nat × ENode)}
    (h : ns.foldl (g.pick cost best) r = some (k, n)) :
    r = some (k, n) ∨ ns.find? (fun m => g.nodeCost? cost best m = some k) = some n ∧
      ∀ k' m, r = some (k', m) → k < k' := by
  induction ns generalizing r with
  | nil => exact .inl h
  | cons m ns ih =>
    rw [List.foldl_cons] at h
    obtain ⟨hpick, hm⟩ | ⟨km, hkm, hpick, hless⟩ := pick_cases g cost best r m
    · rw [hpick] at h
      refine (ih h).imp_right fun ⟨hfind, hless⟩ => ⟨?_, hless⟩
      rw [List.find?_cons_of_neg, hfind]
      -- a node at this cost would not have changed the result, which would then cost no more
      rw [decide_eq_true_eq]
      intro hk
      obtain ⟨k', m', hr, hle⟩ := hm k hk
      exact Nat.lt_irrefl _ (Nat.lt_of_lt_of_le (hless k' m' hr) hle)
    · rw [hpick] at h
      rcases ih h with heq | ⟨hfind, hlt⟩
      · obtain ⟨rfl, rfl⟩ := Prod.mk.inj (Option.some.inj heq)
        exact .inr ⟨List.find?_cons_of_pos (decide_eq_true hkm), hless⟩
      · have hlt' := hlt km m rfl
        refine .inr ⟨?_, fun k' m' hr => Nat.lt_trans hlt' (hless k' m' hr)⟩
        rw [List.find?_cons_of_neg, hfind]
        rw [decide_eq_true_eq, hkm, Option.some.injEq]
        exact Nat.ne_of_gt hlt'

/-- The first of the cheapest nodes is picked. -/
theorem find_cheapest {ns : Array ENode} (h : g.cheapest? cost best ns = some (k, n)) :
    ns.toList.find? (fun m => g.nodeCost? cost best m = some k) = some n := by
  rw [cheapest_eq_foldl] at h
  rcases find_of_foldl_pick h with h | ⟨hfind, -⟩
  · cases h
  · exact hfind

/-! ## The turns of a pass -/

/-- The choices after `p` passes. -/
def passes (g : EGraph) (cost : CostFunction Nat) (p : Nat) : Choices Nat :=
  g.settleCosts cost g.classList p (Array.replicate g.classes.size none)

theorem passes_succ (g : EGraph) (cost : CostFunction Nat) (p : Nat) :
    g.passes cost (p + 1) = (g.improveAll cost g.classList (g.passes cost p) false).1 := by
  rw [passes, settleCosts_add, ← passes, settleCosts]
  split
  · next heq => rw [heq, settleCosts]
  · next heq => rw [heq]

theorem size_passes (g : EGraph) (cost : CostFunction Nat) (p : Nat) :
    (g.passes cost p).size = g.classes.size := by
  induction p with
  | zero => exact Array.size_replicate
  | succ p ih => rw [passes_succ, size_improveAll, ih]

theorem noDearer_passes (g : EGraph) (cost : CostFunction Nat) {p q : Nat} (h : p ≤ q) :
    (g.passes cost q).NoDearer (g.passes cost p) := by
  obtain ⟨r, rfl⟩ := Nat.exists_eq_add_of_le h
  rw [passes, settleCosts_add]
  exact noDearer_settleCosts g cost g.classList r _

/-- From some pass on the choices are those of the end. -/
theorem passes_eq_choices (hs : g.Shape) (hc : cost.Above) (hm : cost.Monotone)
    (h : g.classList.length < p) : g.passes cost p = g.choices cost :=
  settleCosts_eq_choices hs hc hm h

theorem noDearer_choices (hs : g.Shape) (hc : cost.Above) (hm : cost.Monotone) (p : Nat) :
    (g.choices cost).NoDearer (g.passes cost p) := by
  rw [← passes_eq_choices hs hc hm (Nat.lt_succ_of_le (Nat.le_max_right p g.classList.length))]
  exact noDearer_passes g cost (Nat.le_succ_of_le (Nat.le_max_left p _))

theorem improveAll_append (g : EGraph) (cost : CostFunction Nat) (cs ds : List EClass)
    (best : Choices Nat) (changed : Bool) :
    g.improveAll cost (cs ++ ds) best changed =
      g.improveAll cost ds (g.improveAll cost cs best changed).1
        (g.improveAll cost cs best changed).2 := by
  induction cs generalizing best changed with
  | nil => rfl
  | cons c cs ih =>
    rw [List.cons_append, improveAll, improveAll]
    exact ih _ _

theorem choice_improve_of_ne (h : c.id ≠ a) (changed : Bool) :
    (g.improve cost c best changed).1.choice? a = best.choice? a := by
  obtain ⟨heq, -⟩ | ⟨k, n, -, -, -, -, -, heq⟩ := improve_cases g cost c best changed
  · rw [heq]
  · rw [heq, Choices.choice?, Array.getElem?_setIfInBounds_ne h, Choices.choice?]

/-- A class is improved in its own turn only. -/
theorem choice_improveAll_of_ne {cs : List EClass} (h : ∀ c ∈ cs, c.id ≠ a) (changed : Bool) :
    (g.improveAll cost cs best changed).1.choice? a = best.choice? a := by
  induction cs generalizing best changed with
  | nil => rfl
  | cons c cs ih =>
    rw [improveAll]
    exact (ih (fun d hd => h d (List.mem_cons_of_mem c hd)) _).trans
      (choice_improve_of_ne (h c List.mem_cons_self) changed)

/-- The choices that a class sees when its turn comes, after `p` whole passes: the classes before it
have had theirs in this pass. -/
structure Turn (g : EGraph) (cost : CostFunction Nat) (p : Nat) (c : EClass) (seen : Choices Nat) :
    Prop where
  size : seen.size = g.classes.size
  choice : ∀ a, seen.choice? a = (g.passes cost (if a < c.id then p + 1 else p)).choice? a
  improve : ∃ changed, (g.passes cost (p + 1)).choice? c.id =
    (g.improve cost c seen changed).1.choice? c.id

theorem exists_turn (hs : g.Shape) (hc : c ∈ g.classList) (p : Nat) :
    ∃ seen, g.Turn cost p c seen := by
  obtain ⟨before, after, hsplit⟩ := List.append_of_mem hc
  have hsorted := sorted_classList hs
  rw [hsplit] at hsorted
  obtain ⟨-, hafter, hbefore⟩ := List.pairwise_append.1 hsorted
  have hlt := (List.pairwise_cons.1 hafter).1
  have hpass := passes_succ g cost p
  rw [hsplit, improveAll_append, improveAll] at hpass
  generalize hseen : g.improveAll cost before (g.passes cost p) false = r at hpass
  refine ⟨r.1, ?_, fun a => ?_, r.2, ?_⟩
  · rw [← hseen, size_improveAll, size_passes]
  · split
    · next ha =>
      rw [hpass]
      refine ((choice_improveAll_of_ne (fun d hd => ?_) _).trans
        (choice_improve_of_ne (Nat.ne_of_gt ha) _)).symm
      exact Nat.ne_of_gt (Nat.lt_trans ha (hlt d hd))
    · next ha =>
      rw [← hseen]
      refine choice_improveAll_of_ne (fun d hd hda => ha ?_) false
      rw [← hda]
      exact hbefore d hd c List.mem_cons_self
  · rw [hpass]
    exact choice_improveAll_of_ne (fun d hd => Nat.ne_of_gt (hlt d hd)) _

theorem Turn.cost_eq {seen : Choices Nat} (h : g.Turn cost p c seen) (a : ClassId) :
    seen.cost? a = (g.passes cost (if a < c.id then p + 1 else p)).cost? a := by
  rw [Choices.cost?, h.choice a, Choices.cost?]

/-! ## Final costs -/

/-- The class of `id` costs after `p` passes what it costs at the end. -/
def Arrived (g : EGraph) (cost : CostFunction Nat) (p : Nat) (id : ClassId) : Prop :=
  (g.passes cost p).cost? (g.find id) = (g.choices cost).cost? (g.find id)

instance (g : EGraph) (cost : CostFunction Nat) (p : Nat) (id : ClassId) :
    Decidable (g.Arrived cost p id) :=
  inferInstanceAs (Decidable (_ = _))

/-- A class that has its final cost is not improved any more. -/
theorem Arrived.choice_succ (hs : g.Shape) (hc : cost.Above) (hm : cost.Monotone)
    (hid : id < g.size) (h : g.Arrived cost p id) :
    (g.passes cost (p + 1)).choice? (g.find id) = (g.passes cost p).choice? (g.find id) := by
  obtain ⟨c, hstored⟩ := (hs.stored_iff (g.find id)).2 ⟨find_lt hs hid, find_find hs id⟩
  have hcid : c.id = g.find id := hs.id_eq _ c hstored
  obtain ⟨seen, hturn⟩ : ∃ seen, g.Turn cost p c seen :=
    exists_turn hs (mem_classList.2 ⟨_, hstored⟩) p
  obtain ⟨changed, himprove⟩ := hturn.improve
  rw [Arrived, ← hcid] at h
  have hseen := hturn.cost_eq c.id
  rw [if_neg (Nat.lt_irrefl _)] at hseen
  rw [← hcid]
  obtain ⟨heq, -⟩ | ⟨k, n, -, -, -, hless, -, heq⟩ := improve_cases g cost c seen changed
  · rw [himprove, heq, hturn.choice, if_neg (Nat.lt_irrefl _)]
  · -- the class would cost less than at the end
    have hlt : c.id < seen.size := by
      rw [hturn.size, hs.size_classes, hcid]
      exact find_lt hs hid
    have hnew : (g.passes cost (p + 1)).cost? c.id = some k := by
      rw [Choices.cost?, himprove, heq, choice_set hlt, if_pos rfl, Option.map_some]
    obtain ⟨k', hk', hle⟩ := noDearer_choices hs hc hm (p + 1) c.id k hnew
    rw [hk', ← hseen] at h
    exact absurd hle (Nat.not_le_of_lt (hless k' h))

/-- Its choice stays from then on. -/
theorem Arrived.choice_eq (hs : g.Shape) (hc : cost.Above) (hm : cost.Monotone) (hid : id < g.size)
    (h : g.Arrived cost p id) (q : Nat) :
    (g.passes cost (p + q)).choice? (g.find id) = (g.passes cost p).choice? (g.find id) := by
  induction q with
  | zero => rfl
  | succ q ih =>
    have hlater : g.Arrived cost (p + q) id := by
      rw [Arrived, Choices.cost?, ih]
      exact h
    exact (hlater.choice_succ hs hc hm hid).trans ih

theorem Arrived.mono (hs : g.Shape) (hc : cost.Above) (hm : cost.Monotone) (hid : id < g.size)
    (h : g.Arrived cost p id) {q : Nat} (hpq : p ≤ q) : g.Arrived cost q id := by
  obtain ⟨r, rfl⟩ := Nat.exists_eq_add_of_le hpq
  rw [Arrived, Choices.cost?, h.choice_eq hs hc hm hid]
  exact h

/-- The choice of a class that has its final cost is the one of the end. -/
theorem Arrived.choices_eq (hs : g.Shape) (hc : cost.Above) (hm : cost.Monotone) (hid : id < g.size)
    (h : g.Arrived cost p id) :
    (g.choices cost).choice? (g.find id) = (g.passes cost p).choice? (g.find id) := by
  rw [← passes_eq_choices hs hc hm (Nat.lt_add_left p (Nat.lt_succ_self g.classList.length)),
    h.choice_eq hs hc hm hid]

/-- The number of passes after which the class of `id` has its final cost. -/
def arrival (g : EGraph) (cost : CostFunction Nat) (id : ClassId) : Nat :=
  (List.range (g.classList.length + 1)).findIdx fun p => g.Arrived cost p id

theorem arrival_le_iff (hs : g.Shape) (hc : cost.Above) (hm : cost.Monotone) (hid : id < g.size) :
    g.arrival cost id ≤ p ↔ g.Arrived cost p id := by
  constructor
  · intro hle
    refine Arrived.mono hs hc hm hid ?_ hle
    by_cases hlt : g.arrival cost id < (List.range (g.classList.length + 1)).length
    · have hfound : g.Arrived cost _ id := of_decide_eq_true (List.findIdx_getElem (w := hlt))
      have hget := List.getElem_range hlt
      exact hget ▸ hfound
    · rw [List.length_range, Nat.not_lt] at hlt
      rw [Arrived, passes_eq_choices hs hc hm hlt]
  · intro h
    by_contra hlt
    have hnot := List.not_of_lt_findIdx (Nat.lt_of_not_le hlt)
    simp only [List.getElem_range, decide_eq_false_iff_not] at hnot
    exact hnot h

/-- The pass that shows a node of the class of `id` at its final cost.  A child whose class stands
before that of `id` has had its turn in the same pass. -/
def due (g : EGraph) (cost : CostFunction Nat) (id : ClassId) (n : ENode) : Nat :=
  n.children.foldr (fun a k =>
    max (if g.find a < g.find id then g.arrival cost a else g.arrival cost a + 1) k) 1

theorem due_le_iff :
    g.due cost id n ≤ p + 1 ↔
      ∀ a ∈ n.children, g.arrival cost a ≤ if g.find a < g.find id then p + 1 else p := by
  rw [due]
  induction n.children with
  | nil => simp
  | cons a cs ih =>
    rw [List.foldr_cons, Nat.max_le, ih, List.forall_mem_cons]
    refine and_congr_left fun _ => ?_
    split <;> omega

theorem one_le_due (g : EGraph) (cost : CostFunction Nat) (id : ClassId) (n : ENode) :
    1 ≤ g.due cost id n := by
  rw [due]
  induction n.children with
  | nil => exact Nat.le_refl 1
  | cons a cs ih => exact Nat.le_trans ih (Nat.le_max_right _ _)

/-- Among the nodes of a class, the cheapest ones at the end. -/
def Cheapest (g : EGraph) (cost : CostFunction Nat) (id : ClassId) (n : ENode) : Prop :=
  ∃ k ∈ g.nodeCost? cost (g.choices cost) n,
    ∀ m ∈ g.nodesAt id, ∀ k' ∈ g.nodeCost? cost (g.choices cost) m, k ≤ k'

instance (g : EGraph) (cost : CostFunction Nat) (id : ClassId) (n : ENode) :
    Decidable (g.Cheapest cost id n) :=
  inferInstanceAs (Decidable (∃ _ ∈ _, ∀ _ ∈ _, ∀ _ ∈ _, _))

/-- The cheapest nodes that show their cost in the earliest pass. -/
def Soonest (g : EGraph) (cost : CostFunction Nat) (id : ClassId) (n : ENode) : Prop :=
  g.Cheapest cost id n ∧
    ∀ m ∈ g.nodesAt id, g.Cheapest cost id m → g.due cost id n ≤ g.due cost id m

instance (g : EGraph) (cost : CostFunction Nat) (id : ClassId) (n : ENode) :
    Decidable (g.Soonest cost id n) :=
  inferInstanceAs (Decidable (_ ∧ ∀ _ ∈ _, _ → _))

/-! ## The node that is chosen -/

/-- One more pass changes nothing, so no node is cheaper than its class. -/
theorem cost_le_nodeCost (hs : g.Shape) (hc : cost.Above) (hm : cost.Monotone)
    (hmem : c ∈ g.classList) (hk : (g.choices cost).cost? c.id = some k) (hn : n ∈ c.nodes)
    {k' : Nat} (hk' : g.nodeCost? cost (g.choices cost) n = some k') : k ≤ k' := by
  have hlt : c.id < (g.choices cost).size := by
    rw [← passes_eq_choices hs hc hm (Nat.lt_succ_self _), size_passes, hs.size_classes]
    exact lt_of_stored hs (stored_of_mem_classList hs hmem)
  obtain ⟨old, hold, hle⟩ := cost_improveAll_le hm hmem hlt hn hk' false
  rw [improveAll_choices hs hc hm, hk] at hold
  cases hold
  exact hle

/-- The cheapest nodes cost what their class costs. -/
theorem cheapest_iff (hg : g.Grounded) (hc : cost.Above) (hm : cost.Monotone)
    (hmem : c ∈ g.classList) (hk : (g.choices cost).cost? c.id = some k) (hn : n ∈ c.nodes) :
    g.Cheapest cost c.id n ↔ g.nodeCost? cost (g.choices cost) n = some k := by
  have hs := hg.shape
  have hstored := stored_of_mem_classList hs hmem
  constructor
  · rintro ⟨k', hk', hall⟩
    obtain ⟨height, hb⟩ := chosen_choices hg hc hm
    obtain ⟨m, hm'⟩ := exists_choice hk
    obtain ⟨c', hc', hmem'⟩ := hb.node _ k m hm'
    obtain rfl := Option.some.inj (hstored.symm.trans hc')
    have hle := hall m ((mem_nodesAt_of_stored hs hstored).2 hmem') k (hb.exact _ k m hm')
    rw [hk', Nat.le_antisymm hle (cost_le_nodeCost hs hc hm hmem hk hn hk')]
  · intro hk'
    refine ⟨k, hk', fun m hm' k'' hk'' => ?_⟩
    exact cost_le_nodeCost hs hc hm hmem hk ((mem_nodesAt_of_stored hs hstored).1 hm') hk''

/-- A node shows the final cost of its class in a pass if it is cheapest at the end, and due. -/
theorem Turn.nodeCost_iff {seen : Choices Nat} (hturn : g.Turn cost p c seen) (hg : g.Grounded)
    (hc : cost.Above) (hm : cost.Monotone) (hstrict : cost.Strict) (hmem : c ∈ g.classList)
    (hk : (g.choices cost).cost? c.id = some k) (hn : n ∈ c.nodes) :
    g.nodeCost? cost seen n = some k ↔
      g.nodeCost? cost (g.choices cost) n = some k ∧ g.due cost c.id n ≤ p + 1 := by
  have hs := hg.shape
  have hstored := stored_of_mem_classList hs hmem
  -- in the turn a child has its final cost exactly if it has arrived
  have hchild : ∀ a ∈ n.children, seen.cost? (g.find a) = (g.choices cost).cost? (g.find a) ↔
      g.arrival cost a ≤ if g.find a < g.find c.id then p + 1 else p := by
    intro a ha
    have hlt := hg.child_lt c.id n ((mem_nodesAt_of_stored hs hstored).2 hn) a ha
    rw [hturn.cost_eq, find_of_stored hs hstored, arrival_le_iff hs hc hm hlt, Arrived]
  rw [due_le_iff]
  constructor
  · intro hseen
    obtain ⟨v, hv, hcost⟩ := nodeCost_eq_some_iff.1 hseen
    have hex : ∀ a ∈ n.children,
        ∃ w, (g.choices cost).cost? (g.find a) = some w ∧ w ≤ v a := by
      intro a ha
      exact noDearer_choices hs hc hm _ _ _ ((hturn.cost_eq (g.find a)).symm.trans (hv a ha))
    choose! w hw using hex
    have hfinal : g.nodeCost? cost (g.choices cost) n = some (cost (n.map w)) :=
      nodeCost_eq_some_iff.2 ⟨w, fun a ha => (hw a ha).1, rfl⟩
    have hle := cost_le_nodeCost hs hc hm hmem hk hn hfinal
    have hle' := hm.map_le fun a ha => (hw a ha).2
    have heq : cost (n.map w) = cost (n.map v) := Nat.le_antisymm hle' (hcost ▸ hle)
    refine ⟨by rw [hfinal, heq, hcost], fun a ha => (hchild a ha).1 ?_⟩
    rw [hv a ha, (hw a ha).1, hstrict.eq_of_map_eq (fun a ha => (hw a ha).2) heq a ha]
  · rintro ⟨hfinal, hdue⟩
    obtain ⟨v, hv, hcost⟩ := nodeCost_eq_some_iff.1 hfinal
    refine nodeCost_eq_some_iff.2 ⟨v, fun a ha => ?_, hcost⟩
    rw [(hchild a ha).2 (hdue a ha), hv a ha]

/-- A class has its final cost as soon as a cheapest node is due. -/
theorem arrived_of_due (hg : g.Grounded) (hc : cost.Above) (hm : cost.Monotone)
    (hstrict : cost.Strict) (hmem : c ∈ g.classList)
    (hk : (g.choices cost).cost? c.id = some k) (hn : n ∈ c.nodes)
    (hcheap : g.nodeCost? cost (g.choices cost) n = some k) (hdue : g.due cost c.id n ≤ p) :
    g.Arrived cost p c.id := by
  have hs := hg.shape
  have hstored := stored_of_mem_classList hs hmem
  cases p with
  | zero => exact absurd (Nat.le_trans (one_le_due g cost c.id n) hdue) (Nat.not_succ_le_zero 0)
  | succ p =>
    obtain ⟨seen, hturn⟩ := exists_turn hs hmem p
    obtain ⟨changed, himprove⟩ := hturn.improve
    have hseen := (hturn.nodeCost_iff hg hc hm hstrict hmem hk hn).2 ⟨hcheap, hdue⟩
    have hlt : c.id < seen.size := by
      rw [hturn.size, hs.size_classes]
      exact lt_of_stored hs hstored
    obtain ⟨k', hk', hle⟩ := cost_improve_le hlt hn hseen changed
    rw [Choices.cost?, ← himprove, ← Choices.cost?] at hk'
    obtain ⟨k'', hk'', hle'⟩ := noDearer_choices hs hc hm (p + 1) c.id k' hk'
    rw [hk] at hk''
    cases hk''
    rw [Arrived, find_of_stored hs hstored, hk, hk', Nat.le_antisymm hle hle']

/-- The pass that brings a class to its final cost makes its choice. -/
theorem exists_turn_of_choice (hs : g.Shape) (hc : cost.Above) (hm : cost.Monotone)
    (hmem : c ∈ g.classList) (hn : (g.choices cost).choice? c.id = some (k, n)) :
    ∃ p seen, g.arrival cost c.id = p + 1 ∧ g.Turn cost p c seen ∧
      g.cheapest? cost seen c.nodes = some (k, n) := by
  have hstored := stored_of_mem_classList hs hmem
  have hfind := find_of_stored hs hstored
  have hid := lt_of_stored hs hstored
  have harrived := (arrival_le_iff hs hc hm hid).1 (Nat.le_refl (g.arrival cost c.id))
  have hchoice := harrived.choices_eq hs hc hm hid
  rw [hfind, hn] at hchoice
  cases hp : g.arrival cost c.id with
  | zero =>
    rw [hp, passes, settleCosts, Choices.choice?, Array.getElem?_replicate] at hchoice
    split at hchoice <;> cases hchoice
  | succ p =>
    obtain ⟨seen, hturn⟩ : ∃ seen, g.Turn cost p c seen := exists_turn hs hmem p
    obtain ⟨changed, himprove⟩ := hturn.improve
    refine ⟨p, seen, rfl, hturn, ?_⟩
    rw [hp, himprove] at hchoice
    obtain ⟨heq, -⟩ | ⟨k', n', hcheap, -, -, -, -, heq⟩ := improve_cases g cost c seen changed
    · -- the class would have had its final cost before
      rw [heq, hturn.choice, if_neg (Nat.lt_irrefl _)] at hchoice
      have hbefore : g.Arrived cost p c.id := by
        rw [Arrived, hfind, Choices.cost?, Choices.cost?, hn, ← hchoice]
      have hle := (arrival_le_iff hs hc hm hid).2 hbefore
      omega
    · have hlt : c.id < seen.size := by
        rw [hturn.size, hs.size_classes]
        exact hid
      rw [heq, choice_set hlt, if_pos rfl] at hchoice
      rw [hcheap, ← hchoice]

/-- **The choice** of a class is the first of its cheapest nodes that show their cost in the
earliest pass. -/
theorem choice_soonest (hg : g.Grounded) (hc : cost.Above) (hm : cost.Monotone)
    (hstrict : cost.Strict) (hmem : c ∈ g.classList) :
    ∃ k n, (g.choices cost).choice? c.id = some (k, n) ∧
      c.nodes.toList.find? (g.Soonest cost c.id ·) = some n := by
  have hs := hg.shape
  have hstored := stored_of_mem_classList hs hmem
  obtain ⟨height, hb⟩ := chosen_choices hg hc hm
  obtain ⟨k, n, hn⟩ := hb.total c.id (lt_of_stored hs hstored)
  rw [find_of_stored hs hstored] at hn
  have hk := cost_of_choice hn
  obtain ⟨p, seen, hp, hturn, hcheap⟩ := exists_turn_of_choice hs hc hm hmem hn
  have hfirst := find_cheapest hcheap
  refine ⟨k, n, hn, ?_⟩
  have hshown := fun m (hm' : m ∈ c.nodes) => hturn.nodeCost_iff hg hc hm hstrict hmem hk hm'
  have hcheapest := fun m (hm' : m ∈ c.nodes) => cheapest_iff hg hc hm hmem hk hm'
  have hnodes := fun m => mem_nodesAt_of_stored (n := m) hs hstored
  -- no cheapest node is due before the class has its final cost, and the chosen one is due then
  have hdue : ∀ m ∈ c.nodes, g.Cheapest cost c.id m → p + 1 ≤ g.due cost c.id m := by
    intro m hm' hm''
    rw [← hp, arrival_le_iff hs hc hm (lt_of_stored hs hstored)]
    exact arrived_of_due hg hc hm hstrict hmem hk hm' ((hcheapest m hm').1 hm'') (Nat.le_refl _)
  have hmem' : n ∈ c.nodes := Array.mem_toList_iff.1 (List.mem_of_find?_eq_some hfirst)
  have hseen : g.nodeCost? cost seen n = some k := by simpa using List.find?_some hfirst
  have hchosen := (hshown n hmem').1 hseen
  rw [← hfirst]
  refine List.find?_congr fun m hm' => ?_
  rw [Array.mem_toList_iff] at hm'
  rw [decide_eq_decide, hshown m hm', ← hcheapest m hm']
  refine and_congr_right fun hm'' => ⟨fun hall => ?_, fun hle m' hm' hcheap' => ?_⟩
  · exact Nat.le_trans (hall n ((hnodes n).2 hmem') ((hcheapest n hmem').2 hchosen.1)) hchosen.2
  · exact Nat.le_trans hle (hdue m' ((hnodes m').1 hm') hcheap')

/-- What comes first among a part of the list comes first among all if the first of all is in that
part. -/
theorem find_eq_some_iff_of_imp {α : Type} {P Q : α → Prop} [DecidablePred P] [DecidablePred Q]
    {l : List α} {x : α} (himp : ∀ y, P y → Q y) (hx : l.find? (P ·) = some x) :
    l.find? (Q ·) = some x ↔ ∀ y, l.find? (Q ·) = some y → P y := by
  have hP : P x := by simpa using List.find?_some hx
  constructor
  · intro hQ y hy
    rw [hQ] at hy
    cases hy
    exact hP
  · intro hall
    cases hQ : l.find? (Q ·) with
    | none =>
      have hnot := List.find?_eq_none.1 hQ x (List.mem_of_find?_eq_some hx)
      exact absurd (decide_eq_true (himp x hP)) hnot
    | some y =>
      obtain ⟨-, before, after, rfl, hbefore⟩ := List.find?_eq_some_iff_append.1 hQ
      have hy : (before ++ y :: after).find? (P ·) = some y := by
        refine List.find?_eq_some_iff_append.2
          ⟨decide_eq_true (hall y hQ), before, after, rfl, fun z hz => ?_⟩
        have hnot : ¬ Q z := by simpa using hbefore z hz
        simpa using fun hPz => hnot (himp z hPz)
      rw [← hx, hy]

end EGraph

open EGraph

variable {analysis : Analysis} {g : EGraph} {c : EClass}

/-- **Ties.**  The node that is extracted from a class of a clean graph is the first that the class
lists among its cheapest nodes that show their cost in the earliest pass.  That is the first of all
cheapest nodes exactly where none of them shows its cost before this one does. -/
theorem Operated.extract_soonest (h : Operated analysis g) (hclean : g.clean = true)
    (hmem : c ∈ g.classList) :
    ∃ e, g.extract .size c.id = .ok e ∧
      c.nodes.toList.find? (g.Soonest .size c.id ·) = some e.head ∧
      (c.nodes.toList.find? (g.Cheapest .size c.id ·) = some e.head ↔
        ∀ n, c.nodes.toList.find? (g.Cheapest .size c.id ·) = some n →
          g.Soonest .size c.id n) := by
  have hg := h.reached.backed.toGrounded
  have hstored := stored_of_mem_classList hg.shape hmem
  obtain ⟨k, n, hn, hfirst⟩ := choice_soonest hg CostFunction.above_size CostFunction.monotone_size
    CostFunction.strict_size hmem
  have hrun : g.extract .size c.id = .ok ⟨k, n, (g.layOut (g.choices .size) (g.numClasses + 1)
      ⟨.empty, ∅⟩ c.id).term⟩ := by
    rw [extract, if_pos hclean]
    dsimp only
    rw [find_of_stored hg.shape hstored, hn]
  exact ⟨_, hrun, hfirst, find_eq_some_iff_of_imp (fun _ => And.left) hfirst⟩

/-- A class is made of the sum of a variable with itself, the minus of a variable that is entered
later, and the plus of the first, and two of them are joined in turn to the sum. -/
def tied (a b : ClassId) : EGraph :=
  Operation.runAll [.add (.leaf (.var "x")), .add (.binary .add 0 0), .add (.leaf (.var "y")),
    .add (.unary .minus 2), .add (.unary .plus 0), .union 1 a, .union 1 b, .rebuild]
    (empty .constantFolding)

/-- Where the plus comes before the minus it is extracted: it shows its cost in the first pass. -/
theorem extract_soonest_tied :
    Operated .constantFolding (tied 4 3) ∧ (tied 4 3).clean = true ∧
      ∃ c ∈ (tied 4 3).classList, c.id = 1 ∧
        c.nodes.toList = [.binary .add 0 0, .unary .plus 0, .unary .minus 2] ∧
        c.nodes.toList.map ((tied 4 3).due .size 1) = [1, 1, 2] ∧
        ∃ e, (tied 4 3).extract .size 1 = .ok e ∧ e.head = .unary .plus 0 ∧
          c.nodes.toList.find? ((tied 4 3).Cheapest .size 1 ·) = some e.head := by
  have h : Operated .constantFolding (tied 4 3) := by
    refine Operated.empty.runAll ?_
    simp only [Operation.FitAll, Operation.Fits, Node.children]
    decide +kernel
  have hclean : (tied 4 3).clean = true := by decide +kernel
  have hexists : ∃ c ∈ (tied 4 3).classList, c.id = 1 ∧
      c.nodes.toList = [.binary .add 0 0, .unary .plus 0, .unary .minus 2] ∧
      c.nodes.toList.map ((tied 4 3).due .size 1) = [1, 1, 2] ∧
      c.nodes.toList.find? ((tied 4 3).Cheapest .size 1 ·) = some (.unary .plus 0) ∧
      (tied 4 3).Soonest .size 1 (.unary .plus 0) := by decide +kernel
  obtain ⟨c, hmem, hid, hnodes, hdues, hcheapest, hsoonest⟩ := hexists
  obtain ⟨e, hrun, -, hiff⟩ := h.extract_soonest hclean hmem
  rw [hid] at hrun hiff
  have hfirst := hiff.2 fun n hn => by
    rw [hcheapest] at hn
    cases hn
    exact hsoonest
  refine ⟨h, hclean, c, hmem, hid, hnodes, hdues, e, hrun, ?_, hfirst⟩
  rw [hcheapest] at hfirst
  exact (Option.some.inj hfirst).symm

/-- Where the minus comes first the plus is extracted all the same. -/
theorem not_extract_first :
    ¬ ∀ g : EGraph, Operated .constantFolding g → g.clean = true → ∀ c ∈ g.classList,
      ∃ e, g.extract .size c.id = .ok e ∧
        c.nodes.toList.find? (g.Cheapest .size c.id ·) = some e.head := by
  intro hall
  have h : Operated .constantFolding (tied 3 4) := by
    refine Operated.empty.runAll ?_
    simp only [Operation.FitAll, Operation.Fits, Node.children]
    decide +kernel
  have hexists : ∃ c ∈ (tied 3 4).classList, c.id = 1 ∧
      c.nodes.toList.find? ((tied 3 4).Cheapest .size 1 ·) = some (.unary .minus 2) := by
    decide +kernel
  obtain ⟨c, hmem, hid, hcheapest⟩ := hexists
  obtain ⟨e, hrun, hfirst⟩ := hall _ h (by decide +kernel) c hmem
  rw [hid] at hrun hfirst
  have hplus : ((tied 3 4).extract .size 1).toOption.map (·.head) = some (.unary .plus 0) := by
    decide +kernel
  rw [hrun] at hplus
  have hhead : e.head = .unary .plus 0 := Option.some.inj hplus
  rw [hcheapest, hhead] at hfirst
  cases hfirst

end EqSat
