import EqSat.Proofs.Remembered
import EqSat.Proofs.Termination.Paths

/-!
# What calls leave alone

A join that is refused leaves the graph as it was: two different constants are known of its classes,
and the leaf that a join adds for a constant never meets another one.

A term that is added leaves alone what was there.  A node that folds is joined with the leaf of its
constant, and that may give the class of the leaf another representative.  But then nothing uses
that class, and the memo finds no node over it: all that the memo finds is used.  So no two classes
become one, all constants stay as they were, what was found is found, and nothing is queued.

    Operated.union_refused    joins that are refused
    spares_absorb             a class that nothing uses is lost to one that knows the same
    spares_add                a node is added
    Operated.addTerm_spares   a term is added, and added again
-/

namespace EqSat

open EGraph

variable {analysis : Analysis} {g g' g'' : EGraph} {x y c : EClass} {a b id j s : ClassId}
  {n : ENode} {k : Constant} {t : Term} {ids : Array ClassId} {ns : List (Node Nat)}

/-! ## Refused joins -/

/-- Before a join is refused, the ways from the two ids to their roots may have been halved.  The
roots are the same. -/
theorem EGraph.root_find_find (hs : g.Shape) (a b i : ClassId) :
    ((g.links.find a).1.find b).1.root i = g.find i := by
  obtain ⟨hforest, hroots⟩ := UnionFind.forest_find hs.forest a
  exact ((UnionFind.forest_find hforest b).2 i).trans (hroots i)

/-- **A join is refused** if and only if two different constants are known of the classes.  The graph
is as it was then, and halved ways lead to the same roots. -/
theorem Operated.union_refused (h : Operated analysis g) (ha : a < g.size) (hb : b < g.size) :
    (∀ e g', union a b g = .error e g' → g' = g ∧ g.Differ a b e) ∧
    (∀ k l, g.constantAt? a = some k → g.constantAt? b = some l → k ≠ l →
      ∃ e, union a b g = .error e g) ∧
    ∀ i, ((g.links.find a).1.find b).1.root i = g.find i := by
  have hg := h.reached.orderly
  have hcases := union_coherent hg.toIndexed hg.settled (hg.recalled.upTo a b) ha hb
  refine ⟨fun e g' hrun => ?_, fun k l hk hl hne => ?_, root_find_find hg.shape a b⟩
  · rcases hcases with ⟨g₁, hok, -⟩ | ⟨e₁, herror, hdiffer⟩
    · rw [hok] at hrun
      cases hrun
    · rw [herror] at hrun
      cases hrun
      exact ⟨rfl, hdiffer⟩
  · rcases hcases with ⟨g₁, -, hu⟩ | ⟨e₁, herror, -⟩
    · -- the joined class would be known to be both constants
      have hk₁ := hu.ongoing.const a k hk
      rw [constantAt_of_find_eq hu.find_eq, hu.ongoing.const b l hl] at hk₁
      exact absurd (Option.some.inj hk₁).symm hne
    · exact ⟨e₁, herror⟩

/-- Two variables with a plus on each are joined and said to be one.  The pluses are due to be
compared and to be evaluated.  There is also a two, which nothing uses. -/
def strained : EGraph :=
  Operation.runAll [.add (.leaf (.var "x")), .add (.unary .plus 0), .add (.leaf (.var "y")),
    .add (.unary .plus 2), .add (.leaf (.const (.int 1))), .add (.leaf (.const (.int 2))),
    .union 0 2, .union 0 4] (empty .constantFolding)

theorem operated_strained : Operated .constantFolding strained := by
  refine Operated.empty.runAll ?_
  simp only [Operation.FitAll, Operation.Fits, Node.children]
  decide +kernel

/-- One of the variables cannot be two as well.  Nothing is lost of what is to be done. -/
theorem union_refused_strained :
    Operated .constantFolding strained ∧ 2 < strained.size ∧ 5 < strained.size ∧
      strained.pending = [(.unary .plus 2, 3)] ∧
      strained.foldPending = [(.unary .plus 2, 3), (.unary .plus 0, 1)] ∧
      strained.clean = false ∧
      (∃ e, union 2 5 strained = .error e strained ∧ strained.Differ 2 5 e) ∧
      ∀ i, ((strained.links.find 2).1.find 5).1.root i = strained.find i := by
  have h2 : 2 < strained.size := by decide +kernel
  have h5 : 5 < strained.size := by decide +kernel
  obtain ⟨hrefused, hdiffer, hroots⟩ := operated_strained.union_refused h2 h5
  obtain ⟨e, he⟩ := hdiffer (.int 1) (.int 2) (by decide +kernel) (by decide +kernel) (by decide)
  exact ⟨operated_strained, h2, h5, by decide +kernel, by decide +kernel, by decide +kernel,
    ⟨e, he, (hrefused e strained he).2⟩, hroots⟩

/-! ## What is spared -/

namespace EGraph

/-- The later graph says the same of the first `s` ids, which classes they belong to and what is
known of these; it finds the nodes that were found; and nothing more is to be done on it. -/
structure Spares (s : Nat) (g g' : EGraph) : Prop extends Onward g g' where
  find_iff : ∀ a b, a < s → b < s → (g'.find a = g'.find b ↔ g.find a = g.find b)
  constantAt_eq : ∀ a, a < s → g'.constantAt? a = g.constantAt? a
  lookup : ∀ n c, g.lookup n = some c → g'.lookup n = some (g'.find c)
  pending_eq : g'.pending = g.pending
  foldPending_eq : g'.foldPending = g.foldPending

theorem Indexed.current_of_lookup (h : g.Indexed) (hn : g.lookup n = some id) : g.Current id := by
  obtain ⟨j, hj, rfl⟩ := Option.map_eq_some_iff.1 hn
  have hentry : g.Entry (g.canonicalize n, j) := .memo hj
  exact ⟨find_lt h.shape ((h.entry _ hentry).lt h.shape), find_find h.shape j⟩

theorem Spares.refl (hs : g.Shape) : Spares s g g where
  toOnward := Ongoing.refl.toOnward
  find_iff := fun _ _ _ _ => Iff.rfl
  constantAt_eq := fun _ _ => rfl
  lookup := by
    intro n c hc
    obtain ⟨j, hj, rfl⟩ := Option.map_eq_some_iff.1 hc
    rw [hc, find_find hs]
  pending_eq := rfl
  foldPending_eq := rfl

theorem Spares.trans (h : Spares s g g') (hs : g'.Shape) (h' : Spares s g' g'') :
    Spares s g g'' where
  toOnward := h.toOnward.trans h'.toOnward
  find_iff := fun a b ha hb => (h'.find_iff a b ha hb).trans (h.find_iff a b ha hb)
  constantAt_eq := fun a ha => (h'.constantAt_eq a ha).trans (h.constantAt_eq a ha)
  lookup := fun n c hc => by rw [h'.lookup n _ (h.lookup n c hc), h'.find _ _ (find_find hs c)]
  pending_eq := h'.pending_eq.trans h.pending_eq
  foldPending_eq := h'.foldPending_eq.trans h.foldPending_eq

/-- The class of `id` is not used, and none of the first `s` ids belongs to it. -/
structure Detached (s : Nat) (g : EGraph) (id : ClassId) : Prop where
  unused : ∀ c, g.classAt? id = some c → c.parents = #[]
  late : ∀ a, a < s → g.find a ≠ g.find id

/-! ### Primitives -/

theorem spares_enter (hs : g.Shape) (hn : g.Fresh n) (hle : s ≤ g.size) :
    Spares s g (g.enter n) where
  toOnward := (ongoing_enter hs).toOnward
  find_iff := fun a b _ _ => by rw [find_enter hs, find_enter hs]
  constantAt_eq := fun a ha => constantAt_enter_of_lt hs (Nat.lt_of_lt_of_le ha hle)
  lookup := by
    intro m c hc
    obtain ⟨j, hj, rfl⟩ := Option.map_eq_some_iff.1 hc
    have hne : g.canonicalize m ≠ n := by
      rintro rfl
      rw [hn.absent] at hj
      cases hj
    rw [EGraph.lookup, canonicalize_enter hs, memo_enter, if_neg hne, hj, Option.map_some,
      find_enter hs, find_enter hs, find_find hs]
  pending_eq := rfl
  foldPending_eq := rfl

theorem spares_prune (hs : g.Shape) (hc : g.stored? id = some c) (hk : c.data ≠ none) :
    Spares s g (g.modifyClass id EClass.prune) where
  toOnward := (ongoing_prune hs hc hk).toOnward
  find_iff := fun _ _ _ _ => Iff.rfl
  constantAt_eq := fun a _ => (relisted_prune (g := g) hc hk).constantAt_eq a
  lookup := (Spares.refl (s := s) hs).lookup
  pending_eq := rfl
  foldPending_eq := rfl

/-- No node that the memo finds is over a class that is not used. -/
theorem Indexed.find_ne_of_unused (h : g.Indexed) (hc : g.stored? id = some c)
    (hunused : c.parents = #[]) (hn : g.memo[g.canonicalize n]? = some j) :
    ∀ a ∈ n.children, g.find a ≠ id := by
  rintro a ha rfl
  have hchild : g.find a ∈ (g.canonicalize n).children := mem_children_canonicalize.2 ⟨a, ha, rfl⟩
  obtain ⟨d, hd, v, hv, -⟩ := h.entry_used (g.canonicalize n, j) (.memo hn) _ hchild
  rw [classAt_of_stored h.shape hc] at hd
  cases hd
  rw [hunused] at hv
  exact absurd hv (Array.not_mem_empty v)

/-- A class that is not used may be lost to another one, if they know the same and one of them is
no older than `s`. -/
theorem spares_absorb (h : g.Indexed) (hxy : g.Apart x y)
    {k : Option Constant} (hk : mergeConstants x.data y.data = .ok k) (hdata : x.data = y.data)
    (hunused : y.parents = #[])
    (hlate : (∀ a, a < s → g.find a ≠ x.id) ∨ ∀ a, a < s → g.find a ≠ y.id) :
    Spares s g (g.absorb x.id y k) := by
  have hs := h.shape
  have hkx : k = x.data := mergeConstants_self (by rwa [← hdata] at hk)
  have hky : k = y.data := hkx.trans hdata
  refine ⟨(ongoing_absorb hs hxy hk).toOnward, fun a b ha hb => ?_, fun a _ => ?_, fun n c hc => ?_,
    ?_, ?_⟩
  · rw [find_absorb_eq_iff hs hxy]
    refine ⟨?_, .inl⟩
    rintro (hab | ⟨hax, hby⟩ | ⟨hay, hbx⟩)
    · exact hab
    · rcases hlate with hlate | hlate
      · exact absurd hax (hlate a ha)
      · exact absurd hby (hlate b hb)
    · rcases hlate with hlate | hlate
      · exact absurd hbx (hlate b hb)
      · exact absurd hay (hlate a ha)
  · rw [constantAt_absorb hs hxy]
    split
    · next hf =>
      rw [← constantAt_find hs a]
      rcases hf with hf | hf
      · rw [hf, constantAt_of_stored hs hxy.left, hkx]
      · rw [hf, constantAt_of_stored hs hxy.right, hky]
    · rfl
  · obtain ⟨j, hj, rfl⟩ := Option.map_eq_some_iff.1 hc
    have hcan : (g.absorb x.id y k).canonicalize n = g.canonicalize n :=
      Node.map_congr fun a ha => by
        rw [find_absorb hs hxy, if_neg (h.find_ne_of_unused hxy.right hunused hj a ha)]
    have hmemo : (g.absorb x.id y k).memo = g.memo := rfl
    rw [EGraph.lookup, hcan, hmemo, hj, Option.map_some,
      find_absorb_of_eq hs hxy (find_find hs j)]
  · show pushUsages y.parents g.pending = g.pending
    rw [hunused]
    rfl
  · rw [foldPending_absorb hxy, if_neg (not_not_intro hky), if_neg (not_not_intro hkx)]

/-! ### Calls -/

/-- A join of a detached class with one that knows the same. -/
theorem spares_merge (h : g.Indexed) (ha : a < g.size) (hb : b < g.size) (hd : g.Detached s a)
    (hconst : g.constantAt? a = g.constantAt? b) {joined : Bool}
    (hrun : merge a b g = .ok joined g') : Spares s g g' := by
  have hs := h.shape
  rcases merge_cases hs ha hb with ⟨-, hm⟩ | ⟨x, y, hxy, hsize, hab, hm⟩
  · rw [hm] at hrun
    cases hrun
    exact .refl hs
  · have hunused : y.parents = #[] := by
      rcases hab with ⟨hx, -⟩ | ⟨-, hy⟩
      · have hclass : g.classAt? a = some x := by rw [classAt?, ← hx, hxy.left]
        rw [hd.unused x hclass] at hsize
        exact Array.size_eq_zero_iff.1 (Nat.le_zero.1 hsize)
      · exact hd.unused y (by rw [classAt?, ← hy, hxy.right])
    have hlate : (∀ i, i < s → g.find i ≠ x.id) ∨ ∀ i, i < s → g.find i ≠ y.id := by
      rcases hab with ⟨hx, -⟩ | ⟨-, hy⟩
      · exact .inl (hx ▸ hd.late)
      · exact .inr (hy ▸ hd.late)
    rcases mergeInto_cases x y g with ⟨k, hk, hinto⟩ | ⟨l, r, -, -, -, hinto⟩
    · rw [hm, hinto] at hrun
      cases hrun
      exact spares_absorb h hxy hk (hab.data_eq hs hxy hconst) hunused hlate
    · rw [hm, hinto] at hrun
      cases hrun

/-- The leaf of a constant uses no class. -/
theorem spares_intern (hs : g.Shape) (hle : s ≤ g.size) (hid : id < g.size)
    (hd : g.Detached s id) (hrun : intern (.leaf (.const k)) g = .ok j g') :
    Spares s g g' ∧ g'.Detached s id := by
  rw [intern_eq] at hrun
  cases hj : g.memo[(Node.leaf (.const k) : ENode)]? with
  | some i =>
    rw [hj] at hrun
    cases hrun
    exact ⟨.refl hs, hd⟩
  | none =>
    rw [hj] at hrun
    cases hrun
    refine ⟨spares_enter hs ⟨rfl, by simp [Node.children], hj⟩ hle, fun c hc => ?_, fun a ha => ?_⟩
    · rw [classAt_enter_of_lt hs hid] at hc
      obtain ⟨d, hd', rfl⟩ := Option.map_eq_some_iff.1 hc
      simp [hd.unused d hd', Node.children]
    · rw [find_enter hs, find_enter hs]
      exact hd.late a ha

/-- Settling a detached class. -/
theorem spares_settle (h : g.Indexed) (hr : g.Recalled) (hle : s ≤ g.size) (hid : id < g.size)
    (hd : g.Detached s id) (hrun : settle id g = .ok () g') : Spares s g g' := by
  rw [settle_eq] at hrun
  cases hk : g.constantAt? id with
  | none =>
    rw [hk] at hrun
    cases hrun
    exact .refl h.shape
  | some k =>
    obtain ⟨j, g₁, g₂, hintern, hp, hconst, hj, hmerge, hm⟩ := exists_merge_leaf h hr hid hk
    rw [hk] at hrun
    dsimp only at hrun
    rw [bind_ok hintern, bind_ok hmerge] at hrun
    cases hrun
    obtain ⟨hspares₁, hd₁⟩ := spares_intern h.shape hle hid hd hintern
    have hspares₂ := spares_merge hp.indexed (Nat.lt_of_lt_of_le hid hp.ongoing.size_le)
      (lt_of_mem_nodesAt hp.indexed.shape hp.leaf) hd₁ (hconst.trans hj.symm) hmerge
    obtain ⟨c, hc, hck⟩ := Option.bind_eq_some_iff.1 (hm.ongoing.const id k hconst)
    have hne : c.data ≠ none := hck ▸ Option.some_ne_none k
    exact hspares₁.trans hp.indexed.shape
      (hspares₂.trans hm.indexed.shape (spares_prune hm.indexed.shape hc hne))

/-- **Adding** a node spares what is there, and the node is found in the class that it gets. -/
theorem spares_add (h : g.Coherent) (hn : ∀ a ∈ n.children, a < g.size) (hle : s ≤ g.size)
    (hrun : add n g = .ok id g') : Spares s g g' ∧ g'.lookup n = some id := by
  have hs := h.shape
  rw [add_eq] at hrun
  cases hm : g.memo[g.canonicalize n]? with
  | some j =>
    rw [hm] at hrun
    cases hrun
    exact ⟨.refl hs, by rw [EGraph.lookup, hm, Option.map_some]⟩
  | none =>
    rw [hm] at hrun
    dsimp only at hrun
    obtain ⟨⟨⟩, g₁, hsettle, hlast⟩ := bind_eq_ok hrun
    cases hlast
    have hfresh := fresh_canonicalize hs hn hm
    have hlt : g.size < (g.enter (g.canonicalize n)).size := size_lt_enter
    have hself : (g.enter (g.canonicalize n)).find g.size = g.size := find_enter_size hs
    have hd : (g.enter (g.canonicalize n)).Detached s g.size := by
      refine ⟨fun c hc => ?_, fun a ha => ?_⟩
      · rw [classAt_of_stored (shape_enter hs) (stored_enter_size hs hfresh.child_lt)] at hc
        cases hc
        rfl
      · rw [hself, find_enter hs]
        exact Nat.ne_of_lt (find_lt hs (Nat.lt_of_lt_of_le ha hle))
    have hspares := spares_settle (indexed_enter h.toIndexed hfresh)
      (recalled_enter h.toIndexed h.recalled hfresh) (Nat.le_trans hle (Nat.le_of_lt hlt)) hlt hd
      hsettle
    refine ⟨(spares_enter hs hfresh hle).trans (shape_enter hs) hspares, hspares.lookup n _ ?_⟩
    rw [EGraph.lookup, canonicalize_enter hs, memo_enter, if_pos rfl, Option.map_some, hself]

end EGraph

/-! ## Added terms -/

/-- The nodes that have been added are found in the classes that they were given. -/
def Placed (g : EGraph) (ns : List (Node Nat)) (ids : Array ClassId) : Prop :=
  ∀ (i : Nat) (n : Node Nat), i < ids.size → ns[i]? = some n →
    g.lookup (n.map fun j => ids.getD j 0) = some (g.find (ids.getD i 0))

/-- One more node is found in a later graph, and the others still are. -/
theorem placed_push {n : Node Nat}
    (hns : ∀ (i : Nat) (n : Node Nat), ns[i]? = some n → ∀ c ∈ n.children, c < i)
    (hs : g.Shape) (hspares : Spares s g g') (h : Placed g ns ids) (hn : ns[ids.size]? = some n)
    (hid : g'.lookup (n.map fun j => ids.getD j 0) = some id) (hfind : g'.find id = id) :
    Placed g' ns (ids.push id) := by
  intro i m hi hm
  rw [Array.size_push] at hi
  have hle := Nat.le_of_lt_succ hi
  -- the children of a node stand before it
  rw [map_getD_push fun j hj => Nat.lt_of_lt_of_le (hns i m hm j hj) hle]
  rcases Nat.lt_or_eq_of_le hle with hlt | rfl
  · rw [getD_push_of_lt hlt, hspares.lookup _ _ (h i m hlt hm), hspares.find _ _ (find_find hs _)]
  · obtain rfl := Option.some.inj (hn.symm.trans hm)
    rw [getD_push_size, hid, hfind]

/-- The first nodes of a list have been added to `g`, which gave `g'`. -/
structure PartlyAdded (g : EGraph) (ns : List (Node Nat)) (ids : Array ClassId) (g' : EGraph) :
    Prop where
  coherent : g'.Coherent
  spares : Spares g.size g g'
  lt : ∀ id ∈ ids, id < g'.size
  placed : Placed g' ns ids

/-- The next node is added. -/
theorem PartlyAdded.push
    (hns : ∀ (i : Nat) (n : Node Nat), ns[i]? = some n → ∀ c ∈ n.children, c < i)
    {n : Node Nat} (h : PartlyAdded g ns ids g') (hn : ns[ids.size]? = some n) :
    ∃ id g'', add (n.map fun i => ids.getD i 0) g' = .ok id g'' ∧
      PartlyAdded g ns (ids.push id) g'' := by
  have hs := h.coherent.shape
  have hchild : ∀ a ∈ (n.map fun i => ids.getD i 0).children, a < g'.size :=
    child_lt_of_mapM h.lt (Node.mapM_getElem 0 (hns _ n hn))
  obtain ⟨id, g'', hrun, hc, hon, -⟩ := add_coherent h.coherent hchild
  obtain ⟨hspares, hlookup⟩ := spares_add h.coherent hchild h.spares.size_le hrun
  obtain ⟨hlt, hfind⟩ := hc.current_of_lookup hlookup
  exact ⟨id, g'', hrun, hc, h.spares.trans hs hspares, lt_of_mem_push h.lt hon.size_le hlt,
    placed_push hns hs hspares h.placed hn hlookup hfind⟩

/-- **An added term** leaves alone what was there.  Adding it again gives the same class and changes
nothing. -/
theorem Operated.addTerm_spares (h : Operated analysis g) (ht : t.isEmpty = false) :
    ∃ id g', addTerm t g = .ok (some id) g' ∧ Spares g.size g g' ∧
      addTerm t g' = .ok (some id) g' := by
  have hg := h.reached.orderly
  have hnone : PartlyAdded g t.nodes.toList #[] g := ⟨hg.toCoherent, .refl hg.shape,
    fun id hid => by simp at hid, fun i n hi => absurd hi (Nat.not_lt_zero i)⟩
  obtain ⟨ids, g', hrun, hadded, hsize⟩ := addNodes_ind Term.lt_of_mem_children_toList
    (fun ids n g' => PartlyAdded.push Term.lt_of_mem_children_toList) t.nodes.toList hnone rfl
    (Nat.zero_le _)
  have hs := hadded.coherent.shape
  have hsize' : ids.size = t.size := hsize.trans Array.length_toList
  have hfound : g'.lookupTerm t = some (g'.find (ids.getD (t.size - 1) 0)) := by
    refine lookupTerm_of_lookup hs ht fun i n hn => hadded.placed i n ?_ ?_
    · rw [hsize']
      exact (Array.getElem?_eq_some_iff.1 hn).1
    · rwa [Array.getElem?_toList]
  refine ⟨_, g', addTerm_of_addNodes ht hrun hsize', hadded.spares, ?_⟩
  rw [addTerm_of_lookupTerm hfound, find_find hs]

/-- One plus one. -/
def onePlusOne : Term :=
  .ofTree (.binary .add (.leaf (.const (.int 1))) (.leaf (.const (.int 1))))

/-- The sum is found to be two when it is added.  Its class takes the place of that of the two,
which nothing used, and all is as it was for the older ids. -/
theorem addTerm_spares_strained :
    Operated .constantFolding strained ∧ onePlusOne.isEmpty = false ∧ strained.size = 6 ∧
      strained.find 5 = 5 ∧ strained.constantAt? 5 = some (.int 2) ∧
      ∃ g, addTerm onePlusOne strained = .ok (some 6) g ∧ g.find 5 = 6 ∧
        g.constantAt? 5 = some (.int 2) ∧ Spares 6 strained g ∧
        addTerm onePlusOne g = .ok (some 6) g := by
  have ht : onePlusOne.isEmpty = false := by decide +kernel
  obtain ⟨id, g, hadd, hspares, hagain⟩ := operated_strained.addTerm_spares ht
  have hsize : strained.size = 6 := by decide +kernel
  have htwo : strained.constantAt? 5 = some (.int 2) := by decide +kernel
  have hrun : (match addTerm onePlusOne strained with
      | .ok id g => (id, g.find 5)
      | .error _ _ => (none, 0)) = (some 6, 6) := by decide +kernel
  rw [hadd] at hrun
  simp only [Prod.mk.injEq, Option.some.injEq] at hrun
  obtain ⟨rfl, hfind⟩ := hrun
  rw [hsize] at hspares
  refine ⟨operated_strained, ht, hsize, by decide +kernel, htwo, g, hadd, hfind, ?_, hspares, hagain⟩
  rw [hspares.constantAt_eq 5 (by decide), htwo]

end EqSat
