import EqSat.Proofs.AnyRules
import EqSat.Proofs.Evaluator
import EqSat.Proofs.Extraction
import EqSat.Proofs.Wrapping
import EqSat.Rule.Default

/-!
# Simplifying closed terms

The nodes of a closed term that evaluates all fold, so that after the first rebuild every class
is a known constant and lists nothing but the leaf of the constant.  In such a graph the one
built-in rule that finds anything puts a plus before a class; the plus goes into that class, and
is dropped as the class is settled.  So whatever rules are selected, and within any limits, no
class is ever without its constant, and what is extracted is the leaf of the value.

    evaluated_of_tidy       every class of a rebuilt closed term is known
    History.matchingAll     only the rule that adds pluses is ever applied
    simplify_eval           the result is the value
-/

namespace EqSat

open EGraph

variable {g g' start : EGraph} {o o' o₀ : Origin Constant} {rules : List Rule}
  {graphs : List EGraph} {stop : Option Conflict}

/-! ## Nodes that fold -/

/-- A node means the constant that it folds to. -/
def folding : Meaning Constant where
  analysis := .constantFolding
  const := id
  Holds n d := (n.map some).fold? = some d
  holds_const := fun _ => rfl
  unique := fun hd he => Option.some.inj (hd.symm.trans he)
  fold := by
    intro _ n k d hk hd
    rw [n.map_id] at hd
    exact Option.some.inj (hd.symm.trans hk)

/-- A node means the constant that it folds to, but a plus what its operand does. -/
def wrapping : Meaning Constant where
  analysis := .constantFolding
  const := id
  Holds n d := n = .unary .plus d ∨ (n.map some).fold? = some d
  holds_const := fun _ => .inr rfl
  unique := by
    have hplus : ∀ {d e : Constant}, UnaryOp.fold? .plus d = some e → d = e := by
      intro d e h
      cases d <;> cases h
      rfl
    rintro n d e (rfl | hd) (he | he)
    · exact (Node.unary.inj he).2
    · exact hplus he
    · subst he
      exact (hplus hd).symm
    · exact Option.some.inj (hd.symm.trans he)
  fold := by
    rintro - n k d hk hd
    rw [n.map_id] at hd
    rcases hd with rfl | hd
    · cases d <;> cases hk
      rfl
    · exact Option.some.inj (hd.symm.trans hk)

theorem coarser_wrapping : Coarser folding wrapping id where
  analysis := rfl
  const := fun _ => rfl
  holds := by
    intro n d h
    rw [n.map_id]
    exact .inr h

/-! ## Graphs of known classes -/

/-- Every class is a known constant. -/
def Evaluated (g : EGraph) : Prop := ∀ i, i < g.size → ∃ k, g.constantAt? i = some k

/-- **After a rebuild** all nodes that fold have been folded. -/
theorem evaluated_of_tidy (h : Valid folding g o) (ht : Tidy g) : Evaluated g := by
  intro i hi
  induction i using Nat.strong_induction_on with
  | _ i ih =>
    have hchild : ∀ a ∈ (o.node i).children, g.constantAt? a = some (o.value a) := by
      intro a ha
      have hlt := h.founded.child_lt i hi a ha
      obtain ⟨k, hk⟩ := ih a hlt (Nat.lt_trans hlt hi)
      rw [hk, h.sound.value_const a k hk]
      rfl
    have hfold : g.foldNode (o.node i) = some (o.value i) := by
      have hholds : (((o.node i).map o.value).map some).fold? = some (o.value i) :=
        h.sound.holds i hi
      rw [foldNode, h.sound.analysis, Node.map_congr hchild]
      rwa [Node.map_map] at hholds
    rcases h.complete.folded i hi _ hfold with hk | ⟨u, hu, -⟩
    · exact ⟨_, hk⟩
    · rw [ht.foldPending] at hu
      cases hu

/-- What is known stays known, where no classes are made. -/
theorem Evaluated.extends {new : ENode → Prop} (h : Evaluated g) (hext : Extends new g o g' o')
    (hnear : ∀ i, i < g'.size → ∃ j, j < g.size ∧ g'.find i = g'.find j) : Evaluated g' := by
  intro i hi
  obtain ⟨j, hj, hij⟩ := hnear i hi
  obtain ⟨k, hk⟩ := h j hj
  exact ⟨k, by rw [constantAt_of_find_eq hij, hext.const j k hk]⟩

/-- A class lists the leaf of its constant only. -/
theorem Evaluated.nodes_eq (hall : Evaluated g) (h : Valid wrapping g o) {id : ClassId} {c : EClass}
    (hc : g.stored? id = some c) : ∀ n ∈ c.nodes, n = .leaf (.const (o.value id)) := by
  intro n hn
  have hlt := lt_of_stored h.shape hc
  obtain ⟨k, hk⟩ := hall id hlt
  have hdata : c.data = some k := by rw [← constantAt_of_stored h.shape hc, hk]
  obtain ⟨-, -, hleaves⟩ := h.settled id c k not_false hc hdata
  have hholds := h.holds (h.founded.nodes id c hc n hn)
  cases n with
  | leaf l =>
    have hfold := hholds.resolve_left fun hplus => by cases hplus
    cases l with
    | const k' =>
      obtain rfl : k' = o.value id := Option.some.inj hfold
      rfl
    | var x => cases hfold
  | unary op a => cases hleaves _ hn
  | binary op a b => cases hleaves _ hn

theorem Evaluated.nodesAt_eq (hall : Evaluated g) (h : Valid wrapping g o) {id : ClassId}
    {n : ENode} (hn : n ∈ g.nodesAt id) : ∃ k, n = .leaf (.const k) := by
  unfold nodesAt at hn
  split at hn
  · next c hc => exact ⟨_, hall.nodes_eq h hc n (Array.mem_toList_iff.1 hn)⟩
  · cases hn

/-- Patterns that ask for an operator find nothing. -/
theorem Evaluated.search_eq (hall : Evaluated g) (h : Valid wrapping g o) {p : Pattern} {m : Match}
    (hm : m ∈ p.search g) : (∃ x, p = .hole x) ∨ ∃ l, p = .leaf l := by
  obtain ⟨c, -, hm⟩ := List.mem_flatMap.1 hm
  obtain ⟨s, hs, -⟩ := List.mem_map.1 hm
  have hmatch := Subst.mem_of_mem_distinct hs
  cases p with
  | hole x => exact .inl ⟨x, rfl⟩
  | leaf l => exact .inr ⟨l, rfl⟩
  | unary op p =>
    obtain ⟨a, ha, -⟩ := Pattern.mem_matchesAt_unary.1 hmatch
    obtain ⟨k, hk⟩ := hall.nodesAt_eq h ha
    cases hk
  | binary op p q =>
    obtain ⟨a, b, hab, -⟩ := Pattern.mem_matchesAt_binary.1 hmatch
    obtain ⟨k, hk⟩ := hall.nodesAt_eq h hab
    cases hk

/-! ## Runs on graphs of known classes -/

/-- The rules that match every class. -/
def Rule.matchingAll (rules : List Rule) : List Rule := rules.filter (·.lhs = .hole "x")

/-- A built-in rule that needs no operator puts a plus before any term. -/
theorem addsPlus_of_default {r : Rule} (hr : r ∈ Rule.defaults)
    (hl : (∃ x, r.lhs = .hole x) ∨ ∃ l, r.lhs = .leaf l) : r.AddsPlus "x" := by
  have hplus : ∀ r ∈ Rule.defaults,
      (r.lhs = .hole "x" ∧ r.rhs = .unary .plus (.hole "x") ∧ r.guard = none) ∨
        r.lhs.heads.head?.any (fun n => !n.isLeaf) = true := by decide
  rcases hplus r hr with ⟨hlhs, hrhs, hguard⟩ | hoperator
  · exact ⟨hlhs, hrhs, hguard⟩
  · rcases hl with ⟨x, hx⟩ | ⟨l, hl⟩
    · rw [hx] at hoperator
      cases hoperator
    · rw [hl] at hoperator
      cases hoperator

theorem keeps_evaluated (hsub : ∀ r ∈ rules, r ∈ Rule.defaults) :
    Keeps wrapping (Rule.matchingAll rules) fun g _ => Evaluated g where
  later := fun _ hall _ hext => hall.extends hext (hext.near fun _ hf => hf)
  apply := by
    intro g o r m hr h hall hm
    obtain ⟨hmem, hlhs⟩ := List.mem_filter.1 hr
    have hplus := addsPlus_of_default (hsub r hmem) (.inl ⟨"x", of_decide_eq_true hlhs⟩)
    refine (applyMatch_plus (fun _ => Or.inl rfl) hplus h hm).imp fun g' o' _ hw hext => ?_
    exact hall.extends hext hw.near

/-- **From a graph of known classes** on, only pluses are ever added. -/
theorem History.matchingAll (hsub : ∀ r ∈ rules, r ∈ Rule.defaults) (h₀ : Valid wrapping start o₀)
    (hall : Evaluated start) (h : History rules start graphs stop) :
    History (Rule.matchingAll rules) start graphs stop := by
  induction h with
  | start => exact .start
  | @apply _ _ r _ seen _ hr hseen hm ih =>
    obtain ⟨o, hvalid, hevaluated⟩ := ih.each (keeps_evaluated hsub) h₀ hall seen hseen
    have hplus := addsPlus_of_default (hsub r hr) (hevaluated.search_eq hvalid hm)
    exact ih.apply (List.mem_filter.2 ⟨hr, decide_eq_true hplus.lhs⟩) hseen hm
  | repair _ hp ih => exact ih.repair hp
  | refold _ hf ih => exact ih.refold hf
  | tidy _ hp hf ih => exact ih.tidy hp hf

/-- A class that lists one leaf only is extracted as that leaf. -/
theorem extract_of_leaf {cost : CostFunction Nat} (hg : g.Grounded) (hclean : g.clean = true)
    (hc : cost.Above) (hm : cost.Monotone) {id : ClassId} {l : Leaf} (hid : id < g.size)
    (hnodes : ∀ c, g.stored? (g.find id) = some c → ∀ n ∈ c.nodes, n = .leaf l) :
    ∃ k, g.extract cost id = .ok ⟨k, .leaf l, Term.ofTree (.leaf l)⟩ := by
  obtain ⟨height, hb⟩ := chosen_choices hg hc hm
  obtain ⟨k, n, hn⟩ := hb.total id hid
  obtain ⟨c, hstored, hmem⟩ := hb.node _ k n hn
  obtain rfl := hnodes c hstored n hmem
  exact ⟨k, extract_of_choice_leaf hg.shape hclean hn⟩

/-- Saturating a closed term ends in a tidy graph of known classes. -/
theorem saturate_evaluated (hsub : ∀ r ∈ rules, r ∈ Rule.defaults) {t : Term} {u : Tree}
    {v : Constant} (ht : t.tree? = some u) (hv : u.eval? = some v) (hall : t.Evaluable)
    (limits : Limits) :
    ∃ root r o, saturate rules limits t = (.ok root, r) ∧ Tidy r.egraph ∧
      Valid wrapping r.egraph o ∧ Evaluated r.egraph ∧ root < r.egraph.size ∧ o.value root = v := by
  obtain ⟨hempty, rfl⟩ := Term.treeAt_of_tree? ht
  obtain ⟨value, hvalue, hfold⟩ := hall.exists_values
  have hroot : value (t.size - 1) = v := by
    rw [hvalue _ (Term.size_sub_one_lt hempty)] at hv
    exact Option.some.inj hv
  obtain ⟨root, g, o, hadd, hvalid, hlt₀, hvalue₀, -, -, -⟩ := addTerm_spec (I := folding) hfold hempty
    ⟨fun _ => .leaf (.const .zero), fun _ => .zero⟩
  rcases rebuild_spec hvalid (fun _ => False) with
    ⟨n, g₁, o₁, hreb, hvalid₁, htidy, hext⟩ | ⟨e, g₁, o₁, -, -, -, hne, heq⟩
  · have hwrapping : Valid wrapping g₁ (o₁.map id) := hvalid₁.map coarser_wrapping
    have hevaluated := evaluated_of_tidy hvalid₁ htidy
    -- that there is a history needs no more than any rules allow, what happens along it does
    obtain ⟨graphs, stop, hist, hhead, hsat⟩ := saturate_of_history
      (sets_anyMeaning rules (hvalid₁.map (coarser_anyMeaning folding))) hadd hreb .start rfl htidy
      limits
    have hsets : Sets wrapping (Rule.matchingAll rules) (fun g _ => Evaluated g) g₁ (o₁.map id) :=
      ⟨keeps_evaluated hsub, hwrapping, hevaluated⟩
    obtain ⟨o₂, hu⟩ := hsets.upheld (hist.matchingAll hsub hwrapping hevaluated) hhead
    generalize saturate rules limits t = s at hhead hsat hu ⊢
    cases hsat with
    | failed hs => exact absurd (hu.stopped _ hs).2 (hu.stopped _ hs).1
    | @done r hs htidy' =>
      obtain ⟨hvalid', hall'⟩ := hu.running hs
      have hlt₁ : root < g₁.size := Nat.lt_of_lt_of_le hlt₀ hext.size_le
      have hlt : root < r.egraph.size := Nat.lt_of_lt_of_le hlt₁ hu.since.size_le
      refine ⟨_, r, o₂, rfl, htidy', hvalid', hall', find_lt hvalid'.shape hlt, ?_⟩
      rw [hvalid'.sound.value_find root hlt, hu.since.value root hlt₁, ← hroot, ← hvalue₀]
      exact hext.value root hlt₀
  · exact absurd heq hne

/-! ## The value of a closed term -/

/-- **Closed terms simplify to their values.**  A term that the reference evaluator gives a value
is simplified to that constant, by all built-in rules or those of any groups, and within any
limits.  The nodes of a tree laid out have values if the tree has (`Term.evaluable_ofTree`). -/
theorem simplify_eval {t : Term} {u : Tree} {v : Constant} (ht : t.tree? = some u)
    (hv : u.eval? = some v) (hall : t.Evaluable) (groups : Option (List String))
    (limits : Limits) :
    t.simplify (Rule.defaultsIn groups) limits = .ok (Term.ofTree (.leaf (.const v))) := by
  have hsub : ∀ r ∈ Rule.defaultsIn groups, r ∈ Rule.defaults := by
    intro r hr
    cases groups with
    | none => exact hr
    | some names => exact (List.mem_filter.1 hr).1
  obtain ⟨id, r, o, hsat, htidy, hvalid, hevaluated, hid, hvalue⟩ :=
    saturate_evaluated hsub ht hv hall limits
  obtain ⟨k, hextract⟩ := extract_of_leaf (l := .const v) hvalid.grounded htidy.clean
    CostFunction.above_size CostFunction.monotone_size hid fun c hc n hn => by
      rw [hevaluated.nodes_eq hvalid hc n hn, hvalid.sound.value_find id hid, hvalue]
  unfold Term.simplify Term.simplifyWith
  rw [hsat]
  dsimp only
  rw [hextract]

/-- Seven divided by minus two is minus three, by the rules of two of the groups. -/
theorem simplify_eval_quotient :
    let quotient := Tree.binary .div (.leaf (.const (.int 7))) (.leaf (.const (.int (-2))))
    let u := Tree.binary .and (.binary .eq quotient (.leaf (.const (.int (-3)))))
      (.leaf (.const (.bool true)))
    (Term.ofTree u).tree? = some u ∧ u.eval? = some (.bool true) ∧ (Term.ofTree u).Evaluable ∧
      (Term.ofTree u).simplify (Rule.defaultsIn (some ["unary", "boolean"])) .default =
        .ok (Term.ofTree (.leaf (.const (.bool true)))) := by
  intro quotient u
  have hv : u.eval? = some (.bool true) := by
    have hquotient : truncate (7 / (-2)) = -3 := by
      have h := truncate_div 7 (-2)
      norm_num at h ⊢
      exact h
    simp [u, quotient, Tree.eval?, BinaryOp.eval?, BinaryOp.evalInt?, BinaryOp.evalBool?,
      hquotient]
  have ht : (Term.ofTree u).tree? = some u := Term.tree?_ofTree u
  have hall : (Term.ofTree u).Evaluable := Term.evaluable_ofTree hv
  exact ⟨ht, hv, hall, simplify_eval ht hv hall (some ["unary", "boolean"]) .default⟩

end EqSat
