import EqSat.Proofs.EGraph.Count
import EqSat.Proofs.Reachable

/-!
# What the memo and the parents know of a reachable graph

A conflict breaks a rebuild off after a usage has left its worklist.  Congruent nodes may then stay
in two classes.  But a conflict is one of two constants: the two classes are both known to be
constants, and list leaves only.  So a weaker order survives, in which classes of known constant
are *alike*, whatever their constants are.

In every reachable graph, also after conflicts, each usage (a node that a class lists, or an entry
among the parents of a class) is remembered: the memo finds its canonical form in a class like its
own, or a repair is due.  The classes of its children list it as a parent, and so they do for what
the memo finds and for what is to be repaired.  Leaves are never lost, and the memo finds them in
their very class.

    recalled_absorb    usages are remembered after a join, if they were up to the join
    coherent_tidy      tidying keeps the order, when no repairs are due
-/

namespace EqSat.EGraph

variable {g g' g'' : EGraph} {u v w : Usage} {x y c : EClass} {a b d id : ClassId} {n : ENode}
  {k : Constant} {rest : List Usage}

/-! ## Classes that a conflict keeps apart -/

/-- Equal, or both known to be constants. -/
def Alike (g : EGraph) (a b : ClassId) : Prop :=
  g.find a = g.find b ∨ (g.constantAt? a ≠ none ∧ g.constantAt? b ≠ none)

/-- Two usages of one canonical form, in classes that are alike. -/
def Close (g : EGraph) (u v : Usage) : Prop :=
  g.canonicalize u.1 = g.canonicalize v.1 ∧ g.Alike u.2 v.2

theorem Alike.symm (h : g.Alike a b) : g.Alike b a := h.imp Eq.symm And.symm

theorem Alike.trans (h : g.Alike a b) (h' : g.Alike b d) : g.Alike a d := by
  rcases h with hab | ⟨ha, hb⟩
  · rcases h' with hbd | ⟨hb, hd⟩
    · exact .inl (hab.trans hbd)
    · exact .inr ⟨by rwa [constantAt_of_find_eq hab], hd⟩
  · rcases h' with hbd | ⟨-, hd⟩
    · exact .inr ⟨ha, by rwa [← constantAt_of_find_eq hbd]⟩
    · exact .inr ⟨ha, hd⟩

theorem alike_find (hs : g.Shape) (a : ClassId) : g.Alike (g.find a) a := .inl (find_find hs a)

theorem close_of_same (h : g.Same u v) : g.Close u v := ⟨h.1, .inl h.2⟩

theorem Close.trans (h : g.Close u v) (h' : g.Close v w) : g.Close u w :=
  ⟨h.1.trans h'.1, h.2.trans h'.2⟩

/-- Equal ids stay equal, what is known stays known, and the ids go on adding up. -/
structure Onward (g g' : EGraph) : Prop where
  analysis : g'.analysis = g.analysis
  size_le : g.size ≤ g'.size
  find : ∀ a b, g.find a = g.find b → g'.find a = g'.find b
  const : ∀ i k, g.constantAt? i = some k → g'.constantAt? i = some k
  unionCount_le : g.unionCount ≤ g'.unionCount
  balanced : g.Balanced → g'.Balanced

/-- As before, and a graph that is not clean does not become so. -/
structure Ongoing (g g' : EGraph) : Prop extends Onward g g' where
  dirty : g.clean = false → g'.clean = false

namespace Onward

theorem trans (h : Onward g g') (h' : Onward g' g'') : Onward g g'' where
  analysis := h'.analysis.trans h.analysis
  size_le := Nat.le_trans h.size_le h'.size_le
  find := fun a b hab => h'.find a b (h.find a b hab)
  const := fun i k hk => h'.const i k (h.const i k hk)
  unionCount_le := Nat.le_trans h.unionCount_le h'.unionCount_le
  balanced := fun hb => h'.balanced (h.balanced hb)

theorem alike (h : Onward g g') (hab : g.Alike a b) : g'.Alike a b := by
  have hconst : ∀ i, g.constantAt? i ≠ none → g'.constantAt? i ≠ none := by
    intro i hi
    obtain ⟨k, hk⟩ := Option.ne_none_iff_exists'.1 hi
    rw [h.const i k hk]
    exact Option.some_ne_none k
  exact hab.imp (h.find a b) (And.imp (hconst a) (hconst b))

theorem close (h : Onward g g') (huv : g.Close u v) : g'.Close u v :=
  ⟨canonicalize_eq_of_find h.find huv.1, h.alike huv.2⟩

end Onward

theorem Ongoing.refl : Ongoing g g :=
  ⟨⟨rfl, Nat.le_refl _, fun _ _ h => h, fun _ _ h => h, Nat.le_refl _, fun h => h⟩, fun h => h⟩

theorem Ongoing.trans (h : Ongoing g g') (h' : Ongoing g' g'') : Ongoing g g'' :=
  ⟨h.toOnward.trans h'.toOnward, fun hd => h'.dirty (h.dirty hd)⟩

theorem ongoing_enter (hs : g.Shape) : Ongoing g (g.enter n) where
  analysis := rfl
  size_le := Nat.le_of_lt size_lt_enter
  find := fun a b hab => by rw [find_enter hs, find_enter hs, hab]
  const := fun i k hk => by rwa [constantAt_enter_of_lt hs (lt_of_constantAt hs hk)]
  unionCount_le := Nat.le_refl _
  balanced := balanced_enter hs
  dirty := fun _ => rfl

theorem ongoing_absorb {k : Option Constant} (hs : g.Shape) (hxy : g.Apart x y)
    (hk : mergeConstants x.data y.data = .ok k) : Ongoing g (g.absorb x.id y k) where
  analysis := rfl
  size_le := Nat.le_of_eq size_absorb.symm
  find := fun _ _ hab => find_absorb_of_eq hs hxy hab
  const := fun _ _ hl => constantAt_absorb_of_eq hs hxy hk hl
  unionCount_le := Nat.le_succ _
  balanced := balanced_absorb hs hxy
  dirty := fun _ => rfl

theorem ongoing_learn (hs : g.Shape) (hc : g.stored? c.id = some c) (hnone : c.data = none) :
    Ongoing g (g.learn c (some k)) where
  analysis := rfl
  size_le := Nat.le_refl _
  find := fun _ _ hab => hab
  const := fun _ _ hl => constantAt_learn_of_eq hc hnone hl
  unionCount_le := Nat.le_refl _
  balanced := balanced_of_links_eq hs (relabels_learn hs c _).shape rfl rfl
  dirty := fun hd => hd

theorem ongoing_prune (hs : g.Shape) (hc : g.stored? id = some c) (hk : c.data ≠ none) :
    Ongoing g (g.modifyClass id EClass.prune) where
  analysis := rfl
  size_le := Nat.le_refl _
  find := fun _ _ hab => hab
  const := fun i k hk' => by rwa [(relisted_prune (g := g) hc hk).constantAt_eq]
  unionCount_le := Nat.le_refl _
  balanced := balanced_of_links_eq hs ((relisted_prune (g := g) hc hk).shape hs) rfl rfl
  dirty := fun hd => hd

/-- Only the memo and the worklists differ. -/
theorem ongoing_of_classes_eq (hs : g.Shape) (ha : g'.analysis = g.analysis)
    (hl : g'.links = g.links) (hc : g'.classes = g.classes) (hu : g'.unionCount = g.unionCount)
    (hd : g'.clean = g.clean) : Ongoing g g' := by
  have hfind : ∀ i, g'.find i = g.find i := fun i => by rw [find, find, hl]
  refine ⟨⟨ha, by rw [size, size, hl], fun a b hab => by rwa [hfind, hfind], fun i k hk => ?_,
    by rw [hu], balanced_of_links_eq hs (relabels_of_classes_eq hs hl hc).shape hl hu⟩,
    fun h => by rwa [hd]⟩
  rwa [constantAt?, classAt?, stored?, hfind, hc]

theorem ongoing_redirect (hs : g.Shape) : Ongoing g (g.redirect u rest) :=
  ongoing_of_classes_eq hs rfl rfl rfl rfl rfl

theorem ongoing_setFoldPending (hs : g.Shape) : Ongoing g { g with foldPending := rest } :=
  ongoing_of_classes_eq hs rfl rfl rfl rfl rfl

/-! ## The order -/

/-- A usage in the lists of the graph: of a node in its class, or among the parents of a class. -/
def Use (g : EGraph) (u : Usage) : Prop :=
  u.1 ∈ g.nodesAt u.2 ∨ ∃ id c, g.stored? id = some c ∧ u ∈ c.parents

/-- The class of `a` has a parent that is close to the usage. -/
def UsedNear (g : EGraph) (a : ClassId) (u : Usage) : Prop :=
  ∃ c, g.classAt? a = some c ∧ ∃ v ∈ c.parents, g.Close v u

/-- The memo finds the node of the usage in a class like its own. -/
def Remembers (g : EGraph) (u : Usage) : Prop :=
  ∃ j, g.memo[g.canonicalize u.1]? = some j ∧ g.Alike j u.2

/-- A repair is due that will do for the usage. -/
def AwaitsNear (g : EGraph) (u : Usage) : Prop := ∃ v ∈ g.pending, g.Close v u

/-- What holds in the middle of a call. -/
structure Indexed (g : EGraph) : Prop extends Backed g where
  used : ∀ u, g.Use u → ∀ a ∈ u.1.children, g.UsedNear a u
  entry_used : ∀ u, g.Entry u → ∀ a ∈ u.1.children, g.UsedNear a u
  parents : ∀ id c, g.stored? id = some c → ∀ u ∈ c.parents, u.1.isLeaf = false
  pending : ∀ u ∈ g.pending, u.1.isLeaf = false
  leaf : ∀ l j, g.memo[(.leaf l : ENode)]? = some j → .leaf l ∈ g.nodesAt j
  found : ∀ id l, .leaf l ∈ g.nodesAt id → g.Found (.leaf l, id)
  once : ∀ id l, (g.nodesAt id).count (.leaf l) ≤ 1
  const : g.analysis = .constantFolding → ∀ id k, .leaf (.const k) ∈ g.nodesAt id →
    g.constantAt? id = some k
  unknown : g.analysis = .empty → ∀ id, g.constantAt? id = none

/-- Every usage is remembered, or its repair is due. -/
def Recalled (g : EGraph) : Prop := ∀ u, g.Use u → g.Remembers u ∨ g.AwaitsNear u

/-- Every usage is remembered, or is remembered in the class of `b` where it is in that of `a`;
otherwise its repair is due. -/
def RecalledUpTo (g : EGraph) (a b : ClassId) : Prop :=
  ∀ u, g.Use u → (∃ j, g.memo[g.canonicalize u.1]? = some j ∧
    (g.Alike j u.2 ∨ (g.Alike j b ∧ g.Alike u.2 a))) ∨ g.AwaitsNear u

/-- What holds between the calls, and between the usages that a rebuild looks at. -/
structure Coherent (g : EGraph) : Prop extends Indexed g where
  recalled : g.Recalled
  settled : g.Settled

/-- A leaf is listed by one class only. -/
theorem Indexed.find_eq_of_leaf (h : g.Indexed) {l : Leaf} (ha : .leaf l ∈ g.nodesAt a)
    (hb : .leaf l ∈ g.nodesAt b) : g.find a = g.find b := by
  obtain ⟨i, hi, hia⟩ := h.found a l ha
  obtain ⟨j, hj, hjb⟩ := h.found b l hb
  obtain rfl := Option.some.inj (hi.symm.trans hj)
  exact hia.symm.trans hjb

theorem Recalled.upTo (h : g.Recalled) (a b : ClassId) : g.RecalledUpTo a b := fun u hu =>
  (h u hu).imp_left fun ⟨j, hj, hju⟩ => ⟨j, hj, .inl hju⟩

/-- What is remembered up to classes that are alike is remembered. -/
theorem RecalledUpTo.recalled (h : g.RecalledUpTo a b) (hab : g.Alike a b) : g.Recalled := by
  intro u hu
  refine (h u hu).imp_left ?_
  rintro ⟨j, hj, hju | ⟨hjb, hua⟩⟩
  · exact ⟨j, hj, hju⟩
  · exact ⟨j, hj, hjb.trans (hua.trans hab).symm⟩

theorem AwaitsNear.onward (h : Onward g g') (hp : ∀ v ∈ g.pending, v ∈ g'.pending)
    (hu : g.AwaitsNear u) : g'.AwaitsNear u := by
  obtain ⟨v, hv, hvu⟩ := hu
  exact ⟨v, hp v hv, h.close hvu⟩

theorem UsedNear.onward (h : Onward g g')
    (hp : ∀ c, g.classAt? a = some c → ∃ c', g'.classAt? a = some c' ∧
      ∀ v ∈ c.parents, v ∈ c'.parents) (hu : g.UsedNear a u) : g'.UsedNear a u := by
  obtain ⟨c, hc, v, hv, hvu⟩ := hu
  obtain ⟨c', hc', hsub⟩ := hp c hc
  exact ⟨c', hc', v, hsub v hv, h.close hvu⟩

theorem UsedNear.of_close (h : g.UsedNear a u) (huv : g.Close u v) : g.UsedNear a v := by
  obtain ⟨c, hc, w, hw, hwu⟩ := h
  exact ⟨c, hc, w, hw, hwu.trans huv⟩

theorem UsedNear.of_find_eq (h : g.UsedNear a u) (hab : g.find a = g.find b) : g.UsedNear b u := by
  obtain ⟨c, hc, hv⟩ := h
  exact ⟨c, by rwa [classAt?, ← hab], hv⟩

/-- What is used under one name is used under another. -/
theorem usedNear_of_same (h : ∀ a ∈ v.1.children, g.UsedNear a v) (huv : g.Same u v) :
    ∀ a ∈ u.1.children, g.UsedNear a u := by
  intro a ha
  have hmem : g.find a ∈ (g.canonicalize v.1).children := by
    rw [← huv.1]
    exact mem_children_canonicalize.2 ⟨a, ha, rfl⟩
  obtain ⟨b, hb, hba⟩ := mem_children_canonicalize.1 hmem
  exact ((h b hb).of_close (close_of_same huv.symm)).of_find_eq hba

/-- The graph without nodes. -/
theorem coherent_empty (analysis : Analysis) : (empty analysis).Coherent := by
  have hnodes : ∀ id, (empty analysis).nodesAt id = [] := fun id => by
    simp [nodesAt, classAt?, stored?, empty]
  have huse : ∀ u, ¬(empty analysis).Use u := by
    rintro u (hu | ⟨id, c, hc, -⟩)
    · rw [hnodes] at hu
      cases hu
    · simp [stored?, empty] at hc
  refine ⟨⟨backed_empty analysis, fun u hu => absurd hu (huse u), ?_, ?_, ?_, ?_, ?_, ?_, ?_, ?_⟩,
    fun u hu => absurd hu (huse u), ?_⟩
  · rintro u (hu | ⟨hc, hu⟩ | hu)
    · simp [empty] at hu
    · exact absurd (.inr ⟨_, _, hc, hu⟩) (huse u)
    · cases hu
  · intro id c hc
    simp [stored?, empty] at hc
  · intro u hu
    cases hu
  · intro l j hj
    simp [empty] at hj
  · intro id l hl
    rw [hnodes] at hl
    cases hl
  · intro id l
    rw [hnodes]
    exact Nat.zero_le 1
  · intro _ id k hk
    rw [hnodes] at hk
    cases hk
  · intro _ id
    simp [constantAt?, classAt?, stored?, empty]
  · intro id c k _ hc
    simp [stored?, empty] at hc

/-! ## Entering a node -/

theorem use_enter (hs : g.Shape) (hn : ∀ a ∈ n.children, a < g.size) (hu : (g.enter n).Use u) :
    g.Use u ∨ u = (n, g.size) := by
  rcases hu with hu | ⟨id, c, hc, hu⟩
  · rcases mem_nodesAt_enter hs hn hu with hu | ⟨hid, hu⟩
    · exact .inl (.inl hu)
    · exact .inr (Prod.ext hu hid)
  · rcases mem_parents_enter hs hc hu with ⟨c', hc', hu⟩ | ⟨rfl, -⟩
    · exact .inl (.inr ⟨id, c', hc', hu⟩)
    · exact .inr rfl

theorem UsedNear.enter (hs : g.Shape) (hu : g.UsedNear a u) : (g.enter n).UsedNear a u := by
  refine hu.onward (ongoing_enter hs).toOnward fun c hc => ?_
  have hlt : a < g.size := (find_lt_iff hs).1 (lt_of_stored hs hc)
  refine ⟨_, by rw [classAt_enter_of_lt hs hlt, hc, Option.map_some], fun v hv => ?_⟩
  exact Array.mem_append_left _ hv

theorem indexed_enter (h : g.Indexed) (hn : g.Fresh n) : (g.enter n).Indexed := by
  have hs := h.shape
  have hsize := nodesAt_enter_size hs hn.child_lt
  have hnew : ∀ a ∈ n.children, (g.enter n).UsedNear a (n, g.size) := by
    intro a ha
    obtain ⟨c, hc, v, hv, hvu⟩ := usedBy_enter_size hs hn ha
    exact ⟨c, hc, v, hv, close_of_same hvu⟩
  refine ⟨backed_enter h.toBacked hn.child_lt, ?_, ?_, ?_, h.pending, ?_, ?_, ?_, ?_, ?_⟩
  · intro u hu a ha
    rcases use_enter hs hn.child_lt hu with hu | rfl
    · exact (h.used u hu a ha).enter hs
    · exact hnew a ha
  · intro u hu a ha
    rcases entry_enter hs hu with hu | rfl
    · exact (h.entry_used u hu a ha).enter hs
    · exact hnew a ha
  · intro id c hc u hu
    rcases mem_parents_enter hs hc hu with ⟨c', hc', hu⟩ | ⟨rfl, hleaf⟩
    · exact h.parents id c' hc' u hu
    · exact hleaf
  · intro l j hj
    rw [memo_enter] at hj
    split at hj
    · next heq =>
      cases hj
      rw [hsize, heq]
      exact List.mem_singleton_self n
    · have hl := h.leaf l j hj
      rwa [nodesAt_enter_of_lt hs (lt_of_mem_nodesAt hs hl)]
  · intro id l hl
    rcases mem_nodesAt_enter hs hn.child_lt hl with hl | ⟨rfl, rfl⟩
    · obtain ⟨j, hj, hjid⟩ := h.found id l hl
      refine ⟨j, ?_, by rw [find_enter hs, find_enter hs]; exact hjid⟩
      show (g.enter n).memo[(.leaf l : ENode)]? = some j
      rw [memo_enter, if_neg]
      · exact hj
      · intro heq
        have hj' : g.memo[(.leaf l : ENode)]? = some j := hj
        rw [heq, hn.absent] at hj'
        cases hj'
    · exact ⟨g.size, by rw [canonicalize_enter hs, hn.canonical, memo_enter, if_pos rfl], rfl⟩
  · intro id l
    rcases Nat.lt_trichotomy id g.size with hlt | rfl | hgt
    · rw [nodesAt_enter_of_lt hs hlt]
      exact h.once id l
    · rw [hsize]
      exact List.count_le_length
    · rw [nodesAt_of_size_le (shape_enter hs) (by rw [size_enter]; exact hgt)]
      exact Nat.zero_le 1
  · intro ha id k hk
    rcases mem_nodesAt_enter hs hn.child_lt hk with hk | ⟨rfl, rfl⟩
    · exact (ongoing_enter hs).toOnward.const id k (h.const ha id k hk)
    · have ha' : g.analysis = .constantFolding := ha
      rw [constantAt_enter_size hs hn.child_lt, foldNode, ha']
      rfl
  · intro ha
    have ha' : g.analysis = .empty := ha
    exact unknown_enter hs hn.child_lt h.unknown ha'

theorem recalled_enter (h : g.Indexed) (hr : g.Recalled) (hn : g.Fresh n) :
    (g.enter n).Recalled := by
  have hs := h.shape
  intro u hu
  rcases use_enter hs hn.child_lt hu with hu | rfl
  · refine (hr u hu).imp ?_ (·.onward (ongoing_enter hs).toOnward fun _ hv => hv)
    rintro ⟨j, hj, hju⟩
    refine ⟨j, ?_, (ongoing_enter hs).toOnward.alike hju⟩
    rw [canonicalize_enter hs, memo_enter, if_neg]
    · exact hj
    · intro heq
      rw [heq, hn.absent] at hj
      cases hj
  · exact .inl ⟨g.size, by rw [canonicalize_enter hs, hn.canonical, memo_enter, if_pos rfl],
      .inl rfl⟩

/-! ## Absorbing a class -/

/-- What the joined class lists was listed by one of the two. -/
theorem exists_of_mem_nodesAt_absorb {k : Option Constant} (hs : g.Shape) (hxy : g.Apart x y)
    (hn : n ∈ (g.absorb x.id y k).nodesAt id) : ∃ j, n ∈ g.nodesAt j ∧
      (g.absorb x.id y k).find j = (g.absorb x.id y k).find id := by
  rw [mem_nodesAt_absorb hs hxy] at hn
  split at hn
  · next hid =>
    have hfind : (g.absorb x.id y k).find id = x.id := by
      rw [find_absorb hs hxy]
      rcases hid with hid | hid
      · rw [hid, if_neg hxy.ne]
      · rw [if_pos hid]
    rcases hn with hn | hn
    · refine ⟨x.id, (mem_nodesAt_of_stored hs hxy.left).2 hn, ?_⟩
      rw [hfind, find_absorb hs hxy, find_of_stored hs hxy.left, if_neg hxy.ne]
    · refine ⟨y.id, (mem_nodesAt_of_stored hs hxy.right).2 hn, ?_⟩
      rw [hfind, find_absorb hs hxy, find_of_stored hs hxy.right, if_pos rfl]
  · exact ⟨id, hn, rfl⟩

theorem exists_of_use_absorb {k : Option Constant} (hs : g.Shape) (hxy : g.Apart x y)
    (hu : (g.absorb x.id y k).Use u) : ∃ j, g.Use (u.1, j) ∧
      (g.absorb x.id y k).find j = (g.absorb x.id y k).find u.2 := by
  rcases hu with hu | ⟨id, c, hc, hu⟩
  · obtain ⟨j, hj, hju⟩ := exists_of_mem_nodesAt_absorb hs hxy hu
    exact ⟨j, .inl hj, hju⟩
  · obtain ⟨j, c', hc', hu⟩ := mem_parents_absorb hs hxy hc hu
    exact ⟨u.2, .inr ⟨j, c', hc', hu⟩, rfl⟩

theorem UsedNear.absorb {k : Option Constant} (hs : g.Shape) (hxy : g.Apart x y)
    (hk : mergeConstants x.data y.data = .ok k) (hu : g.UsedNear a u) :
    (g.absorb x.id y k).UsedNear a u := by
  refine hu.onward (ongoing_absorb hs hxy hk).toOnward fun c hc => ?_
  rw [classAt_absorb hs hxy]
  split
  · next hf =>
    rcases hf with hf | hf
    · obtain rfl := classAt_of_find_eq hxy.left hf hc
      exact ⟨_, rfl, fun v hv => Array.mem_append_left _ hv⟩
    · obtain rfl := classAt_of_find_eq hxy.right hf hc
      exact ⟨_, rfl, fun v hv => Array.mem_append_right _ hv⟩
  · exact ⟨c, hc, fun v hv => hv⟩

theorem nodesAt_absorb {k : Option Constant} (hs : g.Shape) (hxy : g.Apart x y) :
    (g.absorb x.id y k).nodesAt id = if g.find id = x.id ∨ g.find id = y.id then
      g.nodesAt x.id ++ g.nodesAt y.id else g.nodesAt id := by
  rw [nodesAt, classAt_absorb hs hxy, nodesAt, nodesAt, classAt_of_stored hs hxy.left,
    classAt_of_stored hs hxy.right]
  by_cases hid : g.find id = x.id ∨ g.find id = y.id
  · rw [if_pos hid, if_pos hid]
    exact Array.toList_append
  · rw [if_neg hid, if_neg hid, nodesAt]

theorem indexed_absorb {k : Option Constant} (h : g.Indexed) (hxy : g.Apart x y)
    (hk : mergeConstants x.data y.data = .ok k) : (g.absorb x.id y k).Indexed := by
  have hs := h.shape
  have hon := (ongoing_absorb hs hxy hk).toOnward
  refine ⟨backed_absorb h.toBacked hxy, ?_, ?_, ?_, ?_, ?_, ?_, ?_, ?_, ?_⟩
  · intro u hu a ha
    obtain ⟨j, hj, hju⟩ := exists_of_use_absorb hs hxy hu
    exact ((h.used _ hj a ha).absorb hs hxy hk).of_close ⟨rfl, .inl hju⟩
  · exact fun u hu a ha => (h.entry_used u (entry_absorb hs hxy hu) a ha).absorb hs hxy hk
  · intro id c hc u hu
    obtain ⟨j, c', hc', hu⟩ := mem_parents_absorb hs hxy hc hu
    exact h.parents j c' hc' u hu
  · intro u hu
    rcases mem_pending_absorb.1 hu with hu | hu
    · exact h.parents _ y hxy.right u hu
    · exact h.pending u hu
  · exact fun l j hj => mem_nodesAt_absorb_of_mem hs hxy (h.leaf l j hj)
  · intro id l hl
    obtain ⟨j, hj, hjid⟩ := exists_of_mem_nodesAt_absorb hs hxy hl
    obtain ⟨i, hi, hij⟩ := h.found j l hj
    exact ⟨i, hi, (hon.find _ _ hij).trans hjid⟩
  · intro id l
    rw [nodesAt_absorb hs hxy]
    split
    · rw [List.count_append]
      by_cases hx : .leaf l ∈ g.nodesAt x.id
      · have hy : .leaf l ∉ g.nodesAt y.id := by
          intro hy
          have hfind := h.find_eq_of_leaf hx hy
          rw [find_of_stored hs hxy.left, find_of_stored hs hxy.right] at hfind
          exact hxy.ne hfind
        rw [List.count_eq_zero.2 hy]
        exact h.once x.id l
      · rw [List.count_eq_zero.2 hx, Nat.zero_add]
        exact h.once y.id l
    · exact h.once id l
  · intro ha id k hk
    obtain ⟨j, hj, hjid⟩ := exists_of_mem_nodesAt_absorb hs hxy hk
    rw [← constantAt_of_find_eq hjid]
    exact hon.const j k (h.const ha j k hj)
  · intro ha
    have ha' : g.analysis = .empty := ha
    exact unknown_absorb hs hxy hk h.unknown ha'

/-- Usages are remembered after a join, if they were up to the join. -/
theorem recalled_absorb {k : Option Constant} (h : g.Indexed) (hxy : g.Apart x y)
    (hk : mergeConstants x.data y.data = .ok k) (hab : g.Sides x y a b)
    (hr : g.RecalledUpTo a b) : (g.absorb x.id y k).Recalled := by
  have hs := h.shape
  have hon := (ongoing_absorb hs hxy hk).toOnward
  have hjoined : (g.absorb x.id y k).Alike a b := .inl (hab.find_absorb_eq hs hxy)
  intro u hu
  obtain ⟨i, hi, hiu⟩ := exists_of_use_absorb hs hxy hu
  have hclose : (g.absorb x.id y k).Close (u.1, i) u := ⟨rfl, .inl hiu⟩
  rcases hr _ hi with ⟨j, hj, hji⟩ | hw
  · by_cases hcan : (g.absorb x.id y k).canonicalize u.1 = g.canonicalize u.1
    · refine .inl ⟨j, by rw [hcan]; exact hj, Alike.trans ?_ hclose.2⟩
      rcases hji with hji | ⟨hjb, hia⟩
      · exact hon.alike hji
      · exact (hon.alike hjb).trans ((hon.alike hia).trans hjoined).symm
    · -- the canonical form has changed, so the lost class is used and a close usage is pending
      have hchild : ∃ a ∈ u.1.children, g.find a = y.id := by
        by_contra hno
        push Not at hno
        refine hcan (Node.map_congr fun a ha => ?_)
        rw [find_absorb hs hxy, if_neg (hno a ha)]
      obtain ⟨a, ha, hay⟩ := hchild
      obtain ⟨c, hc, v, hv, hvu⟩ := h.used _ hi a ha
      obtain rfl := classAt_of_find_eq hxy.right hay hc
      exact .inr ⟨v, mem_pending_absorb.2 (.inl hv), (hon.close hvu).trans hclose⟩
  · obtain ⟨v, hv, hvu⟩ := hw.onward hon fun v hv => mem_pending_absorb.2 (.inr hv)
    exact .inr ⟨v, hv, hvu.trans hclose⟩

/-! ## Pruning a class -/

theorem use_prune (hu : (g.modifyClass (g.find id) EClass.prune).Use u) : g.Use u := by
  rcases hu with hu | ⟨j, c, hc, hu⟩
  · exact .inl (mem_nodesAt_prune.1 hu).1
  · rw [stored_modifyClass] at hc
    split at hc
    · obtain ⟨c', hc', rfl⟩ := Option.map_eq_some_iff.1 hc
      exact .inr ⟨j, c', hc', hu⟩
    · exact .inr ⟨j, c, hc, hu⟩

theorem nodesAt_prune (a : ClassId) : (g.modifyClass (g.find id) EClass.prune).nodesAt a =
    if g.find id = g.find a then (g.nodesAt a).filter Node.isLeaf else g.nodesAt a := by
  have hfind : (g.modifyClass (g.find id) EClass.prune).find a = g.find a := rfl
  rw [nodesAt, nodesAt, classAt?, classAt?, hfind, stored_modifyClass]
  by_cases ha : g.find id = g.find a
  · rw [if_pos ha, if_pos ha]
    cases g.stored? (g.find a) with
    | none => rfl
    | some c => exact Array.toList_filter
  · rw [if_neg ha, if_neg ha]

theorem UsedNear.prune (hs : g.Shape) (hc : g.stored? id = some c) (hk : c.data ≠ none)
    (hu : g.UsedNear a u) : (g.modifyClass id EClass.prune).UsedNear a u := by
  refine hu.onward (ongoing_prune hs hc hk).toOnward fun d hd => ?_
  rw [classAt?, (relisted_prune (g := g) hc hk).find_eq, stored_modifyClass]
  rw [classAt?] at hd
  split
  · exact ⟨d.prune, by rw [hd]; rfl, fun v hv => hv⟩
  · exact ⟨d, hd, fun v hv => hv⟩

theorem indexed_prune (h : g.Indexed) (hc : g.stored? (g.find id) = some c) (hk : c.data ≠ none)
    (hleaf : ∃ n ∈ g.nodesAt id, n.isLeaf = true) :
    (g.modifyClass (g.find id) EClass.prune).Indexed := by
  have hr := relisted_prune (g := g) hc hk
  refine ⟨backed_prune h.toBacked hleaf,
    fun u hu a ha => (h.used u (use_prune hu) a ha).prune h.shape hc hk,
    fun u hu a ha => (h.entry_used u (entry_prune hu) a ha).prune h.shape hc hk, ?_, h.pending,
    ?_, ?_, ?_, ?_, ?_⟩
  · intro j d hd u hu
    rw [stored_modifyClass] at hd
    split at hd
    · obtain ⟨d', hd', rfl⟩ := Option.map_eq_some_iff.1 hd
      exact h.parents j d' hd' u hu
    · exact h.parents j d hd u hu
  · exact fun l j hj => mem_nodesAt_prune.2 ⟨h.leaf l j hj, fun _ => rfl⟩
  · exact fun j l hl => h.found j l (mem_nodesAt_prune.1 hl).1
  · intro j l
    rw [nodesAt_prune]
    split
    · exact Nat.le_trans (List.filter_sublist.count_le _) (h.once j l)
    · exact h.once j l
  · intro ha j k hk
    rw [hr.constantAt_eq]
    exact h.const ha j k (mem_nodesAt_prune.1 hk).1
  · intro ha j
    rw [hr.constantAt_eq]
    exact h.unknown ha j

theorem recalled_prune (hs : g.Shape) (hr : g.Recalled) (hc : g.stored? (g.find id) = some c)
    (hk : c.data ≠ none) : (g.modifyClass (g.find id) EClass.prune).Recalled := by
  have hon := (ongoing_prune hs hc hk).toOnward
  intro u hu
  refine (hr u (use_prune hu)).imp ?_ (·.onward hon fun _ hv => hv)
  rintro ⟨j, hj, hju⟩
  exact ⟨j, hj, hon.alike hju⟩

/-! ## Worklists, memo and constants -/

/-- The lists of a graph that differs in its memo, its worklists or its constants. -/
theorem Relabels.use (h : Relabels g g') (hu : g'.Use u) : g.Use u := by
  rcases hu with hu | ⟨id, c', hc', hu⟩
  · exact .inl (by rwa [h.nodesAt_eq] at hu)
  · have hlists := h.lists id
    rw [hc'] at hlists
    obtain ⟨c, hc, heq⟩ := Option.map_eq_some_iff.1 hlists.symm
    simp only [Prod.mk.injEq] at heq
    exact .inr ⟨id, c, hc, by rwa [heq.2]⟩

theorem Relabels.exists_classAt (h : Relabels g g') (hc : g.classAt? a = some c) :
    ∃ c', g'.classAt? a = some c' ∧ c'.parents = c.parents := by
  have hlists := h.lists (g.find a)
  rw [classAt?] at hc
  rw [hc] at hlists
  obtain ⟨c', hc', heq⟩ := Option.map_eq_some_iff.1 hlists
  simp only [Prod.mk.injEq] at heq
  exact ⟨c', by rw [classAt?, h.find_eq]; exact hc', heq.2⟩

theorem Relabels.usedNear (hr : Relabels g g') (hon : Onward g g') (hu : g.UsedNear a u) :
    g'.UsedNear a u := by
  refine hu.onward hon fun c hc => ?_
  obtain ⟨c', hc', heq⟩ := hr.exists_classAt hc
  exact ⟨c', hc', fun v hv => by rwa [heq]⟩

/-- The order of a graph is kept by a change of the memo that leaves leaves alone, and of the
constants that forgets none. -/
theorem Relabels.indexed (hr : Relabels g g') (h : g.Indexed) (hb : g'.Backed) (hon : Onward g g')
    (hunknown : g'.analysis = .empty → ∀ id, g'.constantAt? id = none)
    (hmemo : ∀ l, g'.memo[(.leaf l : ENode)]? = g.memo[(.leaf l : ENode)]?)
    (hentry : ∀ u : Usage, g'.memo[u.1]? = some u.2 → ∃ v, g.Entry v ∧ g.Same u v)
    (hpending : ∀ u ∈ g'.pending, u ∈ g.pending) : g'.Indexed := by
  refine ⟨hb, fun u hu a ha => hr.usedNear hon (h.used u (hr.use hu) a ha), ?_, ?_,
    fun u hu => h.pending u (hpending u hu), ?_, ?_, ?_, ?_, hunknown⟩
  · rintro u (hu | ⟨hc, hu⟩ | hu) a ha
    · obtain ⟨v, hv, huv⟩ := hentry u hu
      exact hr.usedNear hon (usedNear_of_same (h.entry_used v hv) huv a ha)
    · exact hr.usedNear hon (h.used u (hr.use (.inr ⟨_, _, hc, hu⟩)) a ha)
    · exact hr.usedNear hon (h.entry_used u (.pending (hpending u hu)) a ha)
  · intro id c' hc' u hu
    obtain ⟨c, hc, heq⟩ := Option.map_eq_some_iff.1 ((hr.lists id).symm.trans (by rw [hc']; rfl))
    simp only [Prod.mk.injEq] at heq
    exact h.parents id c hc u (by rwa [heq.2])
  · intro l j hj
    rw [hr.nodesAt_eq]
    exact h.leaf l j (by rwa [← hmemo])
  · intro id l hl
    rw [hr.nodesAt_eq] at hl
    obtain ⟨j, hj, hjid⟩ := h.found id l hl
    refine ⟨j, ?_, hon.find _ _ hjid⟩
    show g'.memo[(.leaf l : ENode)]? = some j
    rw [hmemo]
    exact hj
  · intro id l
    rw [hr.nodesAt_eq]
    exact h.once id l
  · intro ha id k hk
    rw [hr.nodesAt_eq] at hk
    exact hon.const id k (h.const (hon.analysis.symm.trans ha) id k hk)

/-- The repair of a node that is no leaf leaves what the memo has for leaves alone. -/
theorem memo_redirect_leaf (hu : u.1.isLeaf = false) (l : Leaf) :
    (g.redirect u rest).memo[(.leaf l : ENode)]? = g.memo[(.leaf l : ENode)]? := by
  rw [memo_redirect, if_neg]
  intro heq
  rw [← Node.isLeaf_map g.find u.1] at hu
  rw [canonicalize] at heq
  rw [← heq] at hu
  cases hu

theorem indexed_redirect (h : g.Indexed) (hp : g.pending = u :: rest) :
    (g.redirect u rest).Indexed := by
  have hr : Relabels g (g.redirect u rest) := relabels_of_classes_eq h.shape rfl rfl
  have hmem : u ∈ g.pending := by
    rw [hp]
    exact List.mem_cons_self
  have hsub : ∀ v ∈ rest, v ∈ g.pending := fun v hv => by
    rw [hp]
    exact List.mem_cons_of_mem _ hv
  have hu := h.entry u (.pending hmem)
  refine hr.indexed h (backed_pop (backed_redirect h.toBacked hu) hsub)
    (ongoing_redirect h.shape).toOnward h.unknown (memo_redirect_leaf (h.pending u hmem))
    (fun v hv => ?_) hsub
  rw [memo_redirect] at hv
  split at hv
  · next hcan =>
    refine ⟨u, .pending hmem, ?_, by rw [← Option.some.inj hv]⟩
    rw [hcan, canonicalize_canonicalize h.shape]
  · exact ⟨v, .memo hv, same_refl v⟩

theorem settled_redirect_of_isLeaf (h : g.Settled) (hu : u.1.isLeaf = false) :
    (g.redirect u rest).Settled := by
  intro id c k hid hc hk
  obtain ⟨⟨j, hj, hjid⟩, hleaf, hall⟩ := h id c k hid hc hk
  exact ⟨⟨j, by rw [memo_redirect_leaf hu]; exact hj, hjid⟩, hleaf, hall⟩

/-- A usage is remembered as before, or was remembered where `u` was. -/
theorem remembers_redirect (h : g.Coherent) (hp : g.pending = u :: rest)
    (hv : (g.redirect u rest).Use v) :
    (∃ j, (g.redirect u rest).memo[g.canonicalize v.1]? = some j ∧ (g.Alike j v.2 ∨
      (j = u.2 ∧ ∃ id, g.memo[g.canonicalize u.1]? = some id ∧ g.Alike v.2 id))) ∨
    (g.redirect u rest).AwaitsNear v := by
  have hr : Relabels g (g.redirect u rest) := relabels_of_classes_eq h.shape rfl rfl
  by_cases hcan : g.canonicalize v.1 = g.canonicalize u.1
  · have hmemo : (g.redirect u rest).memo[g.canonicalize v.1]? = some u.2 := by
      rw [memo_redirect, if_pos hcan]
    rcases h.recalled v (hr.use hv) with ⟨j, hj, hjv⟩ | ⟨w, hw, hwv⟩
    · rw [hcan] at hj
      exact .inl ⟨u.2, hmemo, .inr ⟨rfl, j, hj, hjv.symm⟩⟩
    · rw [hp, List.mem_cons] at hw
      rcases hw with rfl | hw
      · exact .inl ⟨w.2, hmemo, .inl hwv.2⟩
      · exact .inr ⟨w, hw, hwv⟩
  · rcases h.recalled v (hr.use hv) with ⟨j, hj, hjv⟩ | ⟨w, hw, hwv⟩
    · exact .inl ⟨j, by rw [memo_redirect, if_neg hcan, hj], .inl hjv⟩
    · rw [hp, List.mem_cons] at hw
      rcases hw with rfl | hw
      · exact absurd hwv.1.symm hcan
      · exact .inr ⟨w, hw, hwv⟩

theorem recalledUpTo_redirect (h : g.Coherent) (hp : g.pending = u :: rest)
    (hid : g.memo[g.canonicalize u.1]? = some id) : (g.redirect u rest).RecalledUpTo id u.2 := by
  intro v hv
  refine (remembers_redirect h hp hv).imp_left ?_
  rintro ⟨j, hj, hjv | ⟨rfl, i, hi, hvi⟩⟩
  · exact ⟨j, hj, .inl hjv⟩
  · obtain rfl := Option.some.inj (hi.symm.trans hid)
    exact ⟨u.2, hj, .inr ⟨.inl rfl, hvi⟩⟩

theorem recalled_redirect (h : g.Coherent) (hp : g.pending = u :: rest)
    (hnone : g.memo[g.canonicalize u.1]? = none) : (g.redirect u rest).Recalled := by
  intro v hv
  refine (remembers_redirect h hp hv).imp_left ?_
  rintro ⟨j, hj, hjv | ⟨rfl, i, hi, hvi⟩⟩
  · exact ⟨j, hj, hjv⟩
  · rw [hnone] at hi
    cases hi

theorem indexed_learn (h : g.Indexed) (hc : g.stored? c.id = some c) (hnone : c.data = none)
    (ha : g.analysis = .constantFolding) : (g.learn c (some k)).Indexed := by
  refine (relabels_learn h.shape c _).indexed h (backed_learn h.toBacked c _)
    (ongoing_learn h.shape hc hnone).toOnward ?_ (fun _ => rfl)
    (fun v hv => ⟨v, .memo hv, same_refl v⟩) fun _ hv => hv
  intro hempty
  have hempty' : g.analysis = .empty := hempty
  rw [ha] at hempty'
  cases hempty'

theorem recalled_learn (hs : g.Shape) (hr : g.Recalled) (hc : g.stored? c.id = some c)
    (hnone : c.data = none) : (g.learn c (some k)).Recalled := by
  have hon : Onward g (g.learn c (some k)) := (ongoing_learn hs hc hnone).toOnward
  intro u hu
  refine (hr u ((relabels_learn hs c _).use hu)).imp ?_ (·.onward hon fun _ hv => hv)
  rintro ⟨j, hj, hju⟩
  exact ⟨j, hj, hon.alike hju⟩

/-- What is to be evaluated is of no concern to the order. -/
theorem coherent_setFoldPending {todo : List Usage} (h : g.Coherent) :
    ({ g with foldPending := todo } : EGraph).Coherent := by
  have hr : Relabels g { g with foldPending := todo } := relabels_of_classes_eq h.shape rfl rfl
  have hon : Onward g { g with foldPending := todo } := (ongoing_setFoldPending h.shape).toOnward
  have hb : ({ g with foldPending := todo } : EGraph).Backed :=
    hr.backed h.toBacked (fun u hu => h.entry u (.memo hu)) fun u hu => h.entry u (.pending hu)
  exact ⟨hr.indexed h.toIndexed hb hon h.unknown (fun _ => rfl)
      (fun v hv => ⟨v, .memo hv, same_refl v⟩) fun _ hv => hv,
    fun u hu => h.recalled u (hr.use hu), h.settled⟩

/-! ## Tidying -/

theorem constantAt_tidy (g : EGraph) (i : ClassId) : g.tidy.constantAt? i = g.constantAt? i := by
  have hfind : g.tidy.find i = g.find i := rfl
  rw [constantAt?, constantAt?, classAt?, classAt?, hfind, stored_tidy]
  cases g.stored? (g.find i) <;> rfl

theorem onward_tidy (hs : g.Shape) : Onward g g.tidy :=
  ⟨rfl, Nat.le_refl _, fun _ _ h => h, fun i k hk => by rwa [constantAt_tidy], Nat.le_refl _,
    balanced_of_links_eq hs (shape_tidy hs) rfl rfl⟩

theorem exists_of_use_tidy (hs : g.Shape) (hu : g.tidy.Use u) :
    ∃ v, g.Use v ∧ u.1 = g.canonicalize v.1 ∧ g.find u.2 = g.find v.2 := by
  rcases hu with hu | ⟨id, c', hc', hu⟩
  · obtain ⟨m, hm, hmu⟩ := mem_nodesAt_tidy.1 hu
    exact ⟨(m, u.2), .inl hm, hmu.symm, rfl⟩
  · rw [stored_tidy] at hc'
    obtain ⟨c, hc, rfl⟩ := Option.map_eq_some_iff.1 hc'
    obtain ⟨v, hv, rfl⟩ := Array.mem_map.1 (mem_of_mem_distinctUsages hu)
    exact ⟨v, .inr ⟨id, c, hc, hv⟩, rfl, find_find hs v.2⟩

theorem leaf_of_canonicalize_eq {l : Leaf} (h : g.canonicalize n = .leaf l) : n = .leaf l := by
  cases n <;> simp only [canonicalize, Node.map, reduceCtorEq, Node.leaf.injEq] at h
  rw [h]

/-- The usage that is kept for a node may name another class, but one that is alike. -/
theorem UsedNear.tidy (hs : g.Shape) (hr : ∀ u, g.Use u → g.Remembers u)
    (hu : g.UsedNear a u) : g.tidy.UsedNear a u := by
  obtain ⟨c, hc, v, hv, hvu⟩ := hu
  have hclass : g.tidy.classAt? a = some (g.tidyClass c) := by
    have hfind : g.tidy.find a = g.find a := rfl
    rw [classAt?] at hc
    rw [classAt?, hfind, stored_tidy, hc, Option.map_some]
  have hmem : (g.canonicalize v.1, g.find v.2) ∈
      c.parents.map fun u => (g.canonicalize u.1, g.find u.2) := Array.mem_map.2 ⟨v, hv, rfl⟩
  obtain ⟨j, hj⟩ := exists_mem_distinctUsages hmem
  obtain ⟨w, hw, hwj⟩ := Array.mem_map.1 (mem_of_mem_distinctUsages hj)
  simp only [Prod.mk.injEq] at hwj
  refine ⟨_, hclass, _, hj, (onward_tidy hs).close ⟨?_, ?_⟩⟩
  · exact (canonicalize_canonicalize hs v.1).trans hvu.1
  · -- the memo finds both usages
    obtain ⟨i, hi, hiv⟩ := hr v (.inr ⟨_, c, hc, hv⟩)
    obtain ⟨i', hi', hiw⟩ := hr w (.inr ⟨_, c, hc, hw⟩)
    rw [hwj.1, hi] at hi'
    obtain rfl := Option.some.inj hi'
    rw [← hwj.2]
    exact (alike_find hs w.2).trans (hiw.symm.trans (hiv.trans hvu.2))

theorem indexed_tidy (h : g.Indexed) (hr : ∀ u, g.Use u → g.Remembers u) : g.tidy.Indexed := by
  have hs := h.shape
  refine ⟨backed_tidy h.toBacked, ?_, ?_, ?_, h.pending, ?_, ?_, ?_, ?_, ?_⟩
  · intro u hu
    obtain ⟨v, hv, huv, hfind⟩ := exists_of_use_tidy hs hu
    have hsame : g.Same u v := ⟨by rw [huv, canonicalize_canonicalize hs], hfind⟩
    exact fun a ha => (usedNear_of_same (h.used v hv) hsame a ha).tidy hs hr
  · intro u hu
    obtain ⟨v, hv, huv⟩ := exists_of_entry_tidy hs hu
    exact fun a ha => (usedNear_of_same (h.entry_used v hv) huv a ha).tidy hs hr
  · intro id c' hc' u hu
    rw [stored_tidy] at hc'
    obtain ⟨c, hc, rfl⟩ := Option.map_eq_some_iff.1 hc'
    obtain ⟨v, hv, rfl⟩ := Array.mem_map.1 (mem_of_mem_distinctUsages hu)
    exact (Node.isLeaf_map g.find v.1).trans (h.parents id c hc v hv)
  · exact fun l j hj => mem_nodesAt_tidy.2 ⟨.leaf l, h.leaf l j hj, rfl⟩
  · intro id l hl
    obtain ⟨m, hm, hml⟩ := mem_nodesAt_tidy.1 hl
    obtain rfl := leaf_of_canonicalize_eq hml
    exact h.found id l hm
  · intro id l
    have hfind : g.tidy.find id = g.find id := rfl
    rw [nodesAt, classAt?, hfind, stored_tidy]
    cases g.stored? (g.find id) with
    | none => exact Nat.zero_le 1
    | some c => exact List.nodup_iff_count_le_one.1 (nodup_distinctNodes _) _
  · intro ha id k hk
    obtain ⟨m, hm, hmk⟩ := mem_nodesAt_tidy.1 hk
    obtain rfl := leaf_of_canonicalize_eq hmk
    rw [constantAt_tidy]
    exact h.const ha id k hm
  · intro ha id
    rw [constantAt_tidy]
    exact h.unknown ha id

theorem settled_tidy (h : g.Settled) : g.tidy.Settled := by
  intro id c' k hid hc' hk
  rw [stored_tidy] at hc'
  obtain ⟨c, hc, rfl⟩ := Option.map_eq_some_iff.1 hc'
  obtain ⟨hmemo, hleaf, hall⟩ := h id c k hid hc hk
  refine ⟨hmemo, mem_distinctNodes.2 (Array.mem_map.2 ⟨_, hleaf, rfl⟩), fun n hn => ?_⟩
  obtain ⟨m, hm, rfl⟩ := Array.mem_map.1 (mem_distinctNodes.1 hn)
  exact (Node.isLeaf_map g.find m).trans (hall m hm)

/-- When no repairs are due, every usage is remembered. -/
theorem Recalled.remembers_of_nil (h : g.Recalled) (hp : g.pending = []) (u : Usage)
    (hu : g.Use u) : g.Remembers u := by
  refine (h u hu).resolve_right ?_
  rintro ⟨v, hv, -⟩
  rw [hp] at hv
  cases hv

theorem coherent_tidy (h : g.Coherent) (hp : g.pending = []) : g.tidy.Coherent := by
  have hr := h.recalled.remembers_of_nil hp
  refine ⟨indexed_tidy h.toIndexed hr, fun u hu => .inl ?_, settled_tidy h.settled⟩
  obtain ⟨v, hv, huv, hfind⟩ := exists_of_use_tidy h.shape hu
  obtain ⟨j, hj, hjv⟩ := hr v hv
  refine ⟨j, ?_, (onward_tidy h.shape).alike (hjv.trans (.inl hfind.symm))⟩
  show g.memo[g.canonicalize u.1]? = some j
  rw [huv, canonicalize_canonicalize h.shape, hj]

end EqSat.EGraph
