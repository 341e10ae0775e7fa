import EqSat.Proofs.Operations

/-!
# The classes that operations make

With constant folding, a class of known constant lists leaves only, the leaf of its constant once
among them, and there is one class for each constant.  That holds at all times: nodes and joins
settle the classes that they touch before they give back, and a conflict changes no class.

The memo and the lists may disagree until a rebuild.  In a clean graph every class lists its nodes
once and over classes of that day, and each node is found in the one class that lists it.

    Operated.keepsConstants    known constants, at all times
    Operated.hashConsed        nodes and their classes, in clean graphs
-/

namespace EqSat

open EGraph

namespace EGraph

variable {g : EGraph} {analysis : Analysis} {id : ClassId} {c : EClass} {n : ENode}

/-! ## Known constants -/

/-- Which constants are known of the classes, and which the classes list. -/
structure KeepsConstants (g : EGraph) : Prop where
  leaves : ∀ id c k, g.stored? id = some c → c.data = some k → ∀ n ∈ c.nodes, n.isLeaf = true
  once : ∀ id c k, g.stored? id = some c → c.data = some k → c.nodes.count (.leaf (.const k)) = 1
  only : ∀ id c k, g.stored? id = some c → c.data = some k →
    ∀ l, .leaf (.const l) ∈ c.nodes → l = k
  known : ∀ id c k, g.stored? id = some c → .leaf (.const k) ∈ c.nodes → c.data = some k
  unique : ∀ id id' c c' k, g.stored? id = some c → g.stored? id' = some c' →
    c.data = some k → c'.data = some k → id = id'

theorem Indexed.data_eq (h : g.Indexed) (ha : g.analysis = .constantFolding)
    (hc : g.stored? id = some c) {k : Constant} (hk : .leaf (.const k) ∈ c.nodes) :
    c.data = some k := by
  rw [← constantAt_of_stored h.shape hc]
  exact h.const ha id k ((mem_nodesAt_of_stored h.shape hc).2 hk)

theorem Indexed.count_leaf (h : g.Indexed) (hc : g.stored? id = some c) {l : Leaf}
    (hl : .leaf l ∈ c.nodes) : c.nodes.count (.leaf l) = 1 := by
  have hle := h.once id l
  rw [nodesAt, classAt_of_stored h.shape hc] at hle
  refine Nat.le_antisymm ?_ (Array.count_pos_iff.2 hl)
  rwa [← Array.count_toList]

theorem Coherent.keeps_known (h : g.Coherent) (ha : g.analysis = .constantFolding) :
    g.KeepsConstants where
  leaves := fun id c k hc hk => (h.settled id c k not_false hc hk).2.2
  once := fun id c k hc hk => h.toIndexed.count_leaf hc (h.settled id c k not_false hc hk).2.1
  only := by
    intro id c k hc hk l hl
    have hdata := h.toIndexed.data_eq ha hc hl
    rw [hk] at hdata
    exact (Option.some.inj hdata).symm
  known := fun id c k hc hk => h.toIndexed.data_eq ha hc hk
  unique := by
    intro id id' c c' k hc hc' hk hk'
    have hs := h.shape
    have hleaf := (h.settled id c k not_false hc hk).2.1
    have hleaf' := (h.settled id' c' k not_false hc' hk').2.1
    have hfind := h.find_eq_of_leaf ((mem_nodesAt_of_stored hs hc).2 hleaf)
      ((mem_nodesAt_of_stored hs hc').2 hleaf')
    rwa [find_of_stored hs hc, find_of_stored hs hc'] at hfind

/-! ## Clean graphs -/

/-- The classes are those of the roots; their nodes are distinct, over classes of the graph as
they are called now; and every node is found in its class, and listed nowhere else. -/
structure HashConsed (g : EGraph) : Prop where
  keys : ∀ id, (∃ c, g.stored? id = some c) ↔ id < g.size ∧ g.find id = id
  id_eq : ∀ id c, g.stored? id = some c → c.id = id
  children : ∀ id c, g.stored? id = some c → ∀ n ∈ c.nodes, ∀ a ∈ n.children, g.Current a
  distinct : ∀ id c, g.stored? id = some c → c.nodes.toList.Nodup
  disjoint : ∀ id id' c c' n, g.stored? id = some c → g.stored? id' = some c' →
    n ∈ c.nodes → n ∈ c'.nodes → id = id'
  lookup : ∀ id c n, g.stored? id = some c → n ∈ c.nodes → g.lookup n = some id

/-- The classes of a tidy graph are as tidying leaves them. -/
theorem nodes_eq_of_tidy_eq (h : g.tidy = g) (hc : g.stored? id = some c) :
    distinctNodes (c.nodes.map g.canonicalize) = c.nodes := by
  have hc' := hc
  rw [← h, stored_tidy, hc, Option.map_some] at hc'
  exact congrArg EClass.nodes (Option.some.inj hc')

/-- Where no repair is due, a listed node is found in its class. -/
theorem Coherent.lookup_eq (h : g.Coherent) (hp : g.pending = []) (hc : g.stored? id = some c)
    (hn : n ∈ c.nodes) : g.lookup n = some id := by
  have hs := h.shape
  have hmem : n ∈ g.nodesAt id := (mem_nodesAt_of_stored hs hc).2 hn
  have hfound : g.Found (n, id) := by
    by_cases hleaf : n.isLeaf = true
    · cases n with
      | leaf l => exact h.found id l hmem
      | unary op a => cases hleaf
      | binary op a b => cases hleaf
    · -- the class lists a node that is no leaf, so its constant is not known
      rcases h.recalled (n, id) (.inl hmem) with ⟨j, hj, hjid | ⟨-, hid⟩⟩ | ⟨v, hv, -⟩
      · exact ⟨j, hj, hjid⟩
      · obtain ⟨k, hk⟩ := Option.ne_none_iff_exists'.1 hid
        rw [constantAt_of_stored hs hc] at hk
        exact absurd ((h.settled id c k not_false hc hk).2.2 n hn) hleaf
      · rw [hp] at hv
        cases hv
  obtain ⟨j, hj, hjid⟩ := hfound
  rw [lookup, hj, Option.map_some, hjid, find_of_stored hs hc]

theorem Orderly.hashConsed_of_clean (h : Orderly analysis g) (hclean : g.clean = true) : g.HashConsed := by
  obtain ⟨hp, -, htidy⟩ := h.rested hclean
  have hlookup : ∀ id c n, g.stored? id = some c → n ∈ c.nodes → g.lookup n = some id :=
    fun id c n hc hn => h.toCoherent.lookup_eq hp hc hn
  refine ⟨h.shape.stored_iff, h.shape.id_eq, ?_, ?_, ?_, hlookup⟩
  · intro id c hc n hn a ha
    refine ⟨h.child_lt id n ((mem_nodesAt_of_stored h.shape hc).2 hn) a ha, ?_⟩
    rw [← nodes_eq_of_tidy_eq htidy hc] at hn
    obtain ⟨m, -, rfl⟩ := Array.mem_map.1 (mem_distinctNodes.1 hn)
    obtain ⟨b, -, rfl⟩ := mem_children_canonicalize.1 ha
    exact find_find h.shape b
  · intro id c hc
    rw [← nodes_eq_of_tidy_eq htidy hc]
    exact nodup_distinctNodes _
  · intro id id' c c' n hc hc' hn hn'
    exact Option.some.inj ((hlookup id c n hc hn).symm.trans (hlookup id' c' n hc' hn'))

end EGraph

/-! ## The graphs of operations -/

variable {analysis : Analysis} {g : EGraph}

/-- **Known constants**, after operations with constant folding, whether or not they succeeded. -/
theorem Operated.keepsConstants (h : Operated .constantFolding g) : g.KeepsConstants :=
  h.reached.orderly.toCoherent.keeps_known h.reached.orderly.analysis_eq

/-- A variable is one, and a plus of it is two. -/
def disputed : EGraph :=
  left (Operation.run (.union 1 3) (left (Operation.run (.union 0 2)
    (left (Operation.run (.add (.leaf (.const (.int 2))))
      (left (Operation.run (.add (.leaf (.const (.int 1))))
        (left (Operation.run (.add (.unary .plus 0))
          (left (Operation.run (.add (.leaf (.var "x"))) (empty .constantFolding))))))))))))

/-- A rebuild finds that the plus is one.  What it leaves has two classes of known constant. -/
theorem keepsConstants_disputed :
    Operated .constantFolding (left (Operation.rebuild.run disputed)) ∧
      (∃ e g, Operation.rebuild.run disputed = .error e g ∧ e.left = .int 2 ∧ e.right = .int 1) ∧
      (left (Operation.rebuild.run disputed)).constantAt? 0 = some (.int 1) ∧
      (left (Operation.rebuild.run disputed)).constantAt? 1 = some (.int 2) ∧
      (left (Operation.rebuild.run disputed)).KeepsConstants := by
  have h : Operated .constantFolding (left (Operation.rebuild.run disputed)) := by
    refine .step (.step (.step (.step (.step (.step (.step .empty _ ?_) _ ?_) _ ?_) _ ?_) _ ?_)
      _ ?_) .rebuild trivial
    all_goals simp only [Operation.Fits, Node.children]
    all_goals decide +kernel
  have herror : (match Operation.rebuild.run disputed with
      | .ok _ _ => none
      | .error e _ => some (e.left, e.right)) = some (Constant.int 2, Constant.int 1) := by
    decide +kernel
  refine ⟨h, ?_, by decide +kernel, by decide +kernel, h.keepsConstants⟩
  cases hrun : Operation.rebuild.run disputed with
  | ok _ g =>
    rw [hrun] at herror
    cases herror
  | error e g =>
    rw [hrun] at herror
    simp only [Option.some.injEq, Prod.mk.injEq] at herror
    exact ⟨e, g, rfl, herror⟩

/-- **Clean graphs** of operations, whether or not they succeeded. -/
theorem Operated.hashConsed (h : Operated analysis g) (hclean : g.clean = true) : g.HashConsed :=
  h.reached.orderly.hashConsed_of_clean hclean

/-- Two variables are found equal after a plus has been put on each, and the graph is rebuilt. -/
def merged : EGraph :=
  left (Operation.rebuild.run (left (Operation.run (.union 0 1)
    (left (Operation.run (.add (.unary .plus 1)) (left (Operation.run (.add (.unary .plus 0))
      (left (Operation.run (.add (.leaf (.var "y")))
        (left (Operation.run (.add (.leaf (.var "x"))) (empty .empty))))))))))))

/-- The two pluses have become one node of one class. -/
theorem hashConsed_merged :
    Operated .empty merged ∧ merged.clean = true ∧ merged.size = 4 ∧
      merged.classList.map (fun c => (c.id, c.nodes.toList)) =
        [(0, [.leaf (.var "x"), .leaf (.var "y")]), (2, [.unary .plus 0])] ∧
      merged.HashConsed := by
  have h : Operated .empty merged := by
    refine .step (.step (.step (.step (.step (.step .empty _ ?_) _ ?_) _ ?_) _ ?_) _ ?_)
      .rebuild trivial
    all_goals simp only [Operation.Fits, Node.children]
    all_goals decide +kernel
  have hclean : merged.clean = true := by decide +kernel
  exact ⟨h, hclean, by decide +kernel, by decide +kernel, h.hashConsed hclean⟩

end EqSat
