import EqSat.Proofs.Simplification
import EqSat.Proofs.Wrapping
import EqSat.Rule.Default

/-!
# Pluses that loop

Where plus means nothing, the one built-in rule that makes a plus puts it into the class of its
operand.  No other rule makes one.  Take some values, before which no node of the seed has a plus:
then all pluses before them loop, and as no class is spelled by way of itself, none of them is
extracted.

    keeps_looping         the built-in rules keep pluses in the classes of their operands
    not_plus_of_spells    pluses that loop are not extracted
-/

namespace EqSat

open EGraph

variable {D : Type} {I : Meaning D} {B : D → Prop} {g g' : EGraph} {o o' : Origin D}

/-- A plus before one of the values is in the class of its operand. -/
def Looping (B : D → Prop) (g : EGraph) (o : Origin D) : Prop :=
  ∀ i, i < g.size → ∀ a, o.node i = .unary .plus a → B (o.value a) → g.find a = g.find i

/-! ## Along a run -/

/-- The node of a later graph is a new one, or loops as before. -/
theorem Looping.later {new : ENode → Prop} (h : Valid I g o) (hl : Looping B g o)
    (hext : Extends new g o g' o')
    (hnew : ∀ i, g.size ≤ i → i < g'.size → ∀ a, o'.node i = .unary .plus a → B (o'.value a) →
      g'.find a = g'.find i) : Looping B g' o' := by
  intro i hi a hnode hvalue
  by_cases hold : i < g.size
  · rw [hext.node i hold] at hnode
    have ha : a < i := h.founded.child_lt i hold a (by simp [hnode, Node.children])
    rw [hext.value a (Nat.lt_trans ha hold)] at hvalue
    exact hext.find _ _ (hl i hold a hnode hvalue)
  · exact hnew i (Nat.le_of_not_lt hold) hi a hnode hvalue

/-- Nodes that are no pluses change nothing. -/
theorem Looping.extends {new : ENode → Prop} (h : Valid I g o) (hl : Looping B g o)
    (hext : Extends new g o g' o') (hnew : ∀ a, ¬ new (.unary .plus a)) : Looping B g' o' := by
  refine hl.later h hext fun i hi hlt a hnode _ => ?_
  rcases hext.fresh i hi hlt with hconst | hn
  · exact absurd hnode hconst.ne_unary
  · rw [hnode] at hn
    exact absurd hn (hnew a)

/-- A rule that puts a plus before a term puts it into the class of the term. -/
theorem Looping.plusIntro (hplus : ∀ d, I.Holds (.unary .plus d) d) {r : Rule} {m : Match}
    {x : String} (hr : r.AddsPlus x) (h : Valid I g o) (hl : Looping B g o)
    (hm : r.lhs.Instance I g o m) : EndsWith I (Looping B) g o (r.applyMatch m g) := by
  refine (applyMatch_plus hplus hr h hm).imp fun g' o' _ hw hext => ?_
  refine hl.later h hext fun i hi hlt a hnode _ => ?_
  rcases hw.fresh i hi hlt with hconst | ⟨a', hnode', hloop⟩
  · exact absurd hnode hconst.ne_unary
  · rw [hnode'] at hnode
    cases hnode
    exact hloop

/-- The built-in rules that hold keep pluses in the classes of their operands. -/
theorem keeps_looping (hplus : ∀ d, I.Holds (.unary .plus d) d) {rules : List Rule}
    (hsub : ∀ r ∈ rules, r ∈ Rule.defaults) (hr : ∀ r ∈ rules, r.Holds I) :
    Keeps I rules (Looping B) where
  later := fun h hl _ hext => hl.extends h hext fun _ hf => hf
  apply := by
    intro g o r m hmem h hl hm
    have hcases : ∀ r ∈ Rule.defaults, .unary .plus () ∉ r.rhs.heads ∨
        r.lhs = .hole "x" ∧ r.rhs = .unary .plus (.hole "x") ∧ r.guard = none := by decide
    rcases hcases r (hsub r hmem) with hno | ⟨hlhs, hrhs, hguard⟩
    · refine Ends.endsWith (Rule.applyMatch_spec h (hr r hmem) hm) fun g' o' _ hext => ?_
      exact hl.extends h hext fun _ hb => hno hb
    · exact hl.plusIntro hplus ⟨hlhs, hrhs, hguard⟩ h hm

/-! ## Seeds -/

/-- The nodes of a term put no plus before one of the values. -/
def PlusFree (B : D → Prop) (t : Term) (value : Nat → D) : Prop :=
  ∀ (i c : Nat), t.nodes[i]? = some (.unary .plus c) → ¬ B (value c)

theorem looping_seed (hplus : ∀ d, I.Holds (.unary .plus d) d) {t : Term} {value : Nat → D}
    (h : Valid I g o) (ht : t.Valued I value) (hfree : PlusFree B t value)
    (hseed : ∀ i, i < g.size → IsConstant (o.node i) ∨ ∃ (k : Nat) (n : Node Nat),
      t.nodes[k]? = some n ∧ (o.node i).outline = n.outline ∧ o.value i = value k) :
    Looping B g o := by
  intro i hi a hnode hvalue
  obtain ⟨k, n, hn, houtline, hik⟩ := (hseed i hi).resolve_left fun hconst => hconst.ne_unary hnode
  have hholds := h.sound.holds i hi
  rw [hnode] at hholds houtline
  cases n with
  | leaf l => cases houtline
  | binary op c d => cases houtline
  | unary op c =>
    cases houtline
    -- both the node and its place in the term have the value of their operands
    have hai : o.value i = o.value a := I.unique hholds (hplus _)
    have hkc : value k = value c := I.unique (ht k _ hn) (hplus _)
    refine absurd ?_ (hfree k c hn)
    rwa [← hkc, ← hik, hai]

/-! ## Extraction -/

/-- What is extracted has no plus before the values that loop: a node that spells a class stands for
an entered one, and no class is spelled by way of itself. -/
theorem not_plus_of_spells {t : Term} {cls : Nat → ClassId} {id : ClassId} (h : Valid I g o)
    (hl : Looping B g o) (hs : g.Spells t cls id) : PlusFree B t fun j => o.value (cls j) := by
  intro i c hn hvalue
  obtain ⟨j, hj, hcan, hfind⟩ := hs.stands h hn
  have hroot : ∀ k (m : Node Nat), t.nodes[k]? = some m → g.find (cls k) = cls k := by
    intro k m hm
    obtain ⟨e, -, he, -⟩ := hs.node k m hm
    exact find_of_stored h.shape he
  obtain ⟨m, hm⟩ := Term.exists_node (t := t) (i := c) (Nat.lt_trans
    (Term.lt_of_mem_children hn (by simp [Node.children])) (Array.getElem?_eq_some_iff.1 hn).1)
  cases hnode : o.node j with
  | leaf l => rw [hnode] at hcan; cases hcan
  | binary op a d => rw [hnode] at hcan; cases hcan
  | unary op a =>
    rw [hnode] at hcan
    obtain ⟨rfl, hca⟩ := Node.unary.inj hcan
    have ha : a < g.size :=
      Nat.lt_trans (h.founded.child_lt j hj a (by simp [hnode, Node.children])) hj
    have hc : cls c < g.size := by
      rw [← find_lt_iff h.shape, hca]
      exact find_lt h.shape ha
    -- the entered node loops, so the extracted one does
    have hloop := hl j hj a hnode (by
      rw [← h.sound.value_eq hc ha hca]
      exact hvalue)
    refine hs.apart i _ hn c (by simp [Node.children]) ?_
    rw [← hroot c m hm, ← hroot i _ hn, hca, hloop, ← hfind]

/-! ## Simplification -/

/-- **Simplification** by built-in rules that hold, of a term with values, ends with a clash or with
a term of the same value at the root, which has no plus before the values that loop. -/
theorem simplify_looping (hplus : ∀ d, I.Holds (.unary .plus d) d)
    (ha : I.analysis = .constantFolding) {rules : List Rule}
    (hsub : ∀ r ∈ rules, r ∈ Rule.defaults) (hr : ∀ r ∈ rules, r.Holds I) {t : Term}
    {value : Nat → D} (ht : t.Valued I value) (hempty : t.isEmpty = false)
    (hfree : PlusFree B t value) (limits : Limits) :
    (∃ e, t.simplify rules limits = .error (.conflict e) ∧ Clash I e) ∨
    ∃ best value', t.simplify rules limits = .ok best ∧ best.isEmpty = false ∧
      best.Valued I value' ∧ PlusFree B best value' ∧
      value' (best.size - 1) = value (t.size - 1) := by
  obtain ⟨id, start, o₀, hadd, hseed⟩ :=
    addTerm_spec ht hempty ⟨fun _ => .leaf (.const .zero), fun _ => value 0⟩
  rw [ha] at hadd
  have hsets : Sets I rules (Looping B) start o₀ :=
    ⟨keeps_looping hplus hsub hr, hseed.valid,
      looping_seed hplus hseed.valid ht hfree hseed.origin⟩
  rcases simplify_spec hsets hadd hseed.lt limits with hclash | ⟨best, g, o, cls, hok, hbest⟩
  · exact .inl hclash
  · exact .inr ⟨best, _, hok, hbest.spells.nonempty, hbest.spells.holds hbest.valid,
      not_plus_of_spells hbest.valid hbest.holds hbest.spells, by
        rw [hbest.value_root hseed.lt, hseed.value_root]⟩

end EqSat
