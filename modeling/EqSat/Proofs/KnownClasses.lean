import EqSat.Proofs.Cheapest
import EqSat.Proofs.Classes

/-!
# What is extracted from a class of known constant

A class of known constant lists leaves only, and all of them cost the same.  So the leaf that
stands first is extracted.  A join puts the nodes of one class behind those of the other, and the
leaf of the constant need not come first: a variable that the class held before may stand there.

    choice_of_leaves           the first of its leaves is chosen for a class
    Operated.extract_known     the constant is extracted exactly where its leaf stands first
-/

namespace EqSat

open EGraph

namespace EGraph

variable {g : EGraph} {best : Choices Nat} {id : ClassId} {c : EClass} {l : Leaf} {ns : List ENode}

/-! ## Classes of leaves -/

/-- A leaf that has been picked is not given up for another. -/
theorem foldl_pick_of_leaves (hns : ∀ n ∈ ns, n.isLeaf = true) (m : ENode) :
    ns.foldl (g.pick .size best) (some (1, m)) = some (1, m) := by
  induction ns with
  | nil => rfl
  | cons n ns ih =>
    have hn : n.isLeaf = true := hns n List.mem_cons_self
    have hpick : g.pick .size best (some (1, m)) n = some (1, m) := by
      cases n with
      | leaf l => rfl
      | unary op a => cases hn
      | binary op a b => cases hn
    rw [List.foldl_cons, hpick]
    exact ih fun n hn => hns n (List.mem_cons_of_mem _ hn)

theorem cheapest_of_leaves (hc : c.nodes.toList = .leaf l :: ns)
    (hns : ∀ n ∈ ns, n.isLeaf = true) : g.cheapest? .size best c.nodes = some (1, .leaf l) := by
  rw [cheapest_eq_foldl, hc]
  exact foldl_pick_of_leaves hns (.leaf l)

/-- The first of its leaves is chosen for a class that lists leaves only. -/
theorem choice_of_leaves (hg : g.Grounded) (hid : id < g.size)
    (hstored : g.stored? (g.find id) = some c) (hc : c.nodes.toList = .leaf l :: ns)
    (hns : ∀ n ∈ ns, n.isLeaf = true) :
    (g.choices .size).choice? (g.find id) = some (1, .leaf l) := by
  have honly : ∀ x, (g.choices .size).choice? (g.find id) = some x → x = (1, .leaf l) := by
    refine settleCosts_ind (P := fun best => ∀ x, best.choice? (g.find id) = some x →
      x = (1, .leaf l)) hg.shape ?_ _ fun x hx => ?_
    · intro d best k n hd h hcheap _ x hx
      rcases choice_set_cases hx with ⟨heq, rfl⟩ | hold
      · rw [heq, hstored] at hd
        obtain rfl := Option.some.inj hd
        rw [cheapest_of_leaves hc hns] at hcheap
        exact (Option.some.inj hcheap).symm
      · exact h x hold
    · rw [Choices.choice?, Array.getElem?_replicate] at hx
      split at hx <;> cases hx
  obtain ⟨height, hb⟩ := chosen_choices hg CostFunction.above_size CostFunction.monotone_size
  obtain ⟨k, n, hn⟩ := hb.total id hid
  rw [hn, honly _ hn]

/-! ## Classes of known constant -/

/-- The leaf that stands first in a class of known constant is the term extracted. -/
theorem extract_of_constantAt (hg : g.Grounded) (hk : g.KeepsConstants) (hclean : g.clean = true)
    {k : Constant} (h : g.constantAt? id = some k) :
    ∃ l, (g.nodesAt id).head? = some (.leaf l) ∧
      g.extract .size id = .ok ⟨1, .leaf l, Term.ofTree (.leaf l)⟩ := by
  obtain ⟨c, hstored, hdata⟩ := Option.bind_eq_some_iff.1 h
  have hleaves := hk.leaves _ c k hstored hdata
  have hnodes : g.nodesAt id = c.nodes.toList := by rw [nodesAt, hstored]
  have hmem : .leaf (.const k) ∈ c.nodes :=
    Array.count_pos_iff.1 (by rw [hk.once _ c k hstored hdata]; exact Nat.one_pos)
  cases hc : c.nodes.toList with
  | nil =>
    rw [← Array.mem_toList_iff, hc] at hmem
    cases hmem
  | cons n ns =>
    have hall : ∀ m ∈ n :: ns, m.isLeaf = true := fun m hm =>
      hleaves m (Array.mem_toList_iff.1 (hc ▸ hm))
    cases n with
    | leaf l =>
      have hchoice := choice_of_leaves hg (lt_of_constantAt hg.shape h) hstored hc
        fun m hm => hall m (List.mem_cons_of_mem _ hm)
      exact ⟨l, by rw [hnodes, hc, List.head?_cons], extract_of_choice_leaf hg.shape hclean hchoice⟩
    | unary op a => cases hall _ List.mem_cons_self
    | binary op a b => cases hall _ List.mem_cons_self

end EGraph

/-- **Classes of known constant.**  In a clean graph that operations have made, such a class is
extracted as one leaf, the first that it lists.  That is the leaf of the constant exactly where
this one stands first; it does where the class lists no variable. -/
theorem Operated.extract_known {g : EGraph} (h : Operated .constantFolding g)
    (hclean : g.clean = true) {id : ClassId} {k : Constant} (hk : g.constantAt? id = some k) :
    (∃ l, (g.nodesAt id).head? = some (.leaf l) ∧
      g.extract .size id = .ok ⟨1, .leaf l, Term.ofTree (.leaf l)⟩) ∧
    (g.extract .size id = .ok ⟨1, .leaf (.const k), Term.ofTree (.leaf (.const k))⟩ ↔
      (g.nodesAt id).head? = some (.leaf (.const k))) ∧
    ((∀ x, .leaf (.var x) ∉ g.nodesAt id) →
      (g.nodesAt id).head? = some (.leaf (.const k))) := by
  obtain ⟨l, hhead, hrun⟩ :=
    extract_of_constantAt h.reached.backed.toGrounded h.keepsConstants hclean hk
  refine ⟨⟨l, hhead, hrun⟩, ?_, fun hno => ?_⟩
  · rw [hhead, hrun]
    constructor
    · intro heq
      rw [Except.ok.injEq, Extracted.mk.injEq] at heq
      rw [heq.2.1]
    · intro heq
      cases heq
      rfl
  · rw [hhead]
    have hmem : .leaf l ∈ g.nodesAt id := List.mem_of_head? hhead
    cases l with
    | const k' =>
      obtain ⟨c, hc, hdata⟩ := Option.bind_eq_some_iff.1 hk
      obtain ⟨c', hc', hmem'⟩ := mem_nodesAt.1 hmem
      rw [hc] at hc'
      obtain rfl := Option.some.inj hc'
      rw [h.keepsConstants.only _ c k hc hdata k' hmem']
    | var x => exact absurd hmem (hno x)

/-- The graph of two leaves that were added in turn and found equal, rebuilt. -/
def equated (l l' : Leaf) : EGraph :=
  left (Operation.rebuild.run (left (Operation.run (.union 0 1)
    (left (Operation.run (.add (.leaf l'))
      (left (Operation.run (.add (.leaf l)) (empty .constantFolding))))))))

/-- A constant that was there before the variable is extracted. -/
theorem extract_known_equated :
    Operated .constantFolding (equated (.const (.int 5)) (.var "x")) ∧
      (equated (.const (.int 5)) (.var "x")).clean = true ∧
      (equated (.const (.int 5)) (.var "x")).constantAt? 0 = some (.int 5) ∧
      (equated (.const (.int 5)) (.var "x")).nodesAt 0 =
        [.leaf (.const (.int 5)), .leaf (.var "x")] ∧
      (equated (.const (.int 5)) (.var "x")).extract .size 0 =
        .ok ⟨1, .leaf (.const (.int 5)), Term.ofTree (.leaf (.const (.int 5)))⟩ := by
  have h : Operated .constantFolding (equated (.const (.int 5)) (.var "x")) := by
    refine .step (.step (.step (.step .empty _ ?_) _ ?_) _ ?_) .rebuild trivial
    all_goals simp only [Operation.Fits, Node.children]
    all_goals decide +kernel
  have hclean : (equated (.const (.int 5)) (.var "x")).clean = true := by decide +kernel
  have hk : (equated (.const (.int 5)) (.var "x")).constantAt? 0 = some (.int 5) := by
    decide +kernel
  have hnodes : (equated (.const (.int 5)) (.var "x")).nodesAt 0 =
      [.leaf (.const (.int 5)), .leaf (.var "x")] := by decide +kernel
  refine ⟨h, hclean, hk, hnodes, (h.extract_known hclean hk).2.1.2 ?_⟩
  rw [hnodes]
  rfl

/-- A variable that was there before the constant is extracted instead. -/
theorem not_extract_constant :
    ¬ ∀ g : EGraph, Operated .constantFolding g → g.clean = true → ∀ id k,
      g.constantAt? id = some k →
        ∃ e, g.extract .size id = .ok e ∧ e.term.tree? = some (.leaf (.const k)) := by
  intro hall
  have h : Operated .constantFolding (equated (.var "x") (.const (.int 5))) := by
    refine .step (.step (.step (.step .empty _ ?_) _ ?_) _ ?_) .rebuild trivial
    all_goals simp only [Operation.Fits, Node.children]
    all_goals decide +kernel
  obtain ⟨e, hrun, htree⟩ := hall _ h (by decide +kernel) 0 (.int 5) (by decide +kernel)
  have hvar : ((equated (.var "x") (.const (.int 5))).extract .size 0).toOption.bind
      (·.term.tree?) = some (.leaf (.var "x")) := by decide +kernel
  rw [hrun] at hvar
  have hvar' : e.term.tree? = some (.leaf (.var "x")) := hvar
  rw [hvar'] at htree
  cases htree

end EqSat
