import EqSat.Proofs.EGraph.Invariant

/-!
# Entering a node keeps the invariant

A node enters when it is canonical, over ids of the graph, and not in the memo.  The graph
is then in order again but for the leaf of a constant that the node may fold to.

    Fresh g n → Core I g o → I.Holds (n.map o.value) d →
      Core I (g.enter n) (o.extend g.size n d)                                   (core_enter)
-/

namespace EqSat.EGraph

variable {D : Type} {I : Meaning D} {g : EGraph} {o : Origin D} {n : ENode} {d : D} {u : Usage}

/-- A node that may enter. -/
structure Fresh (g : EGraph) (n : ENode) : Prop where
  canonical : g.canonicalize n = n
  child_lt : ∀ a ∈ n.children, a < g.size
  absent : g.memo[n]? = none

theorem Same.enter {v : Usage} (hs : g.Shape) (h : g.Same u v) : (g.enter n).Same u v := by
  unfold Same
  rw [canonicalize_enter hs, canonicalize_enter hs, find_enter hs, find_enter hs]
  exact h

theorem Stands.enter (hs : g.Shape) (h : g.Stands o u) :
    (g.enter n).Stands (o.extend g.size n d) u := by
  obtain ⟨i, hi, hu⟩ := h
  refine ⟨i, by rw [size_enter]; exact Nat.lt_succ_of_lt hi, ?_⟩
  rw [Origin.node_extend_of_lt hi]
  exact hu.enter hs

/-- The new id stands for the node. -/
theorem stands_enter_size : (g.enter n).Stands (o.extend g.size n d) (n, g.size) :=
  ⟨g.size, size_lt_enter, by
    rw [Origin.node_extend_self]
    exact same_refl _⟩

/-- An id of the larger graph is old, or the new one. -/
theorem lt_or_eq_of_lt_size_enter {i : ClassId} (hi : i < (g.enter n).size) :
    i < g.size ∨ i = g.size := by
  rw [size_enter] at hi
  exact Nat.lt_succ_iff_lt_or_eq.1 hi

theorem founded_enter (hs : g.Shape) (h : g.Founded o) (hn : g.Fresh n) :
    (g.enter n).Founded (o.extend g.size n d) where
  child_lt := by
    intro i hi a ha
    rcases lt_or_eq_of_lt_size_enter hi with hi | rfl
    · rw [Origin.node_extend_of_lt hi] at ha
      exact h.child_lt i hi a ha
    · rw [Origin.node_extend_self] at ha
      exact hn.child_lt a ha
  memo := by
    intro m id hm
    rw [memo_enter] at hm
    split at hm
    · next hmn =>
      cases hm
      rw [hmn]
      exact stands_enter_size
    · exact (h.memo m id hm).enter hs
  nodes := by
    intro id c hc m hm
    rw [stored_enter hs] at hc
    obtain ⟨c', hc', rfl⟩ := Option.map_eq_some_iff.1 hc
    split at hc'
    · next hid =>
      cases hc'
      obtain rfl : m = n := by simpa using hm
      rw [hid]
      exact stands_enter_size
    · exact (h.nodes id c' hc' m hm).enter hs
  parents := by
    intro id c hc v hv
    rcases mem_parents_enter hs hc hv with ⟨c', hc', hv⟩ | ⟨rfl, -⟩
    · exact (h.parents id c' hc' v hv).enter hs
    · exact stands_enter_size
  pending := fun v hv => (h.pending v hv).enter hs
  foldPending := fun v hv => (h.foldPending v hv).enter hs

theorem UsedBy.enter {a : ClassId} (hs : g.Shape) (ha : a < g.size) (h : g.UsedBy a u) :
    (g.enter n).UsedBy a u := by
  obtain ⟨c, hc, v, hv, hvu⟩ := h
  have hclass := classAt_enter_of_lt (n := n) hs ha
  rw [hc, Option.map_some] at hclass
  exact ⟨_, hclass, v, Array.mem_append_left _ hv, hvu.enter hs⟩

/-- The classes of its children list the new node as a parent. -/
theorem usedBy_enter_size {a : ClassId} (hs : g.Shape) (hn : g.Fresh n) (ha : a ∈ n.children) :
    (g.enter n).UsedBy a (n, g.size) := by
  have hlt := hn.child_lt a ha
  -- the children of a canonical node are roots
  have hroot : g.find a = a := by
    have hmem := ha
    rw [← hn.canonical] at hmem
    obtain ⟨b, -, hb⟩ := mem_children_canonicalize.1 hmem
    rw [← hb, find_find hs]
  obtain ⟨c, hc⟩ := exists_stored hs hlt
  rw [hroot] at hc
  refine ⟨{ c with parents := c.parents ++ Array.replicate (n.children.count a) (n, g.size) },
    ?_, (n, g.size), ?_, same_refl _⟩
  · rw [classAt?, find_enter hs, hroot, stored_enter_of_lt hs hlt, hc]
    rfl
  · refine Array.mem_append_right _ (Array.mem_replicate.2 ⟨?_, rfl⟩)
    exact Nat.ne_of_gt (List.count_pos_iff.2 ha)

theorem AwaitsFold.enter (hs : g.Shape) (h : g.AwaitsFold u) : (g.enter n).AwaitsFold u := by
  obtain ⟨v, hv, hvu⟩ := h
  exact ⟨v, hv, hvu.enter hs⟩

theorem AwaitsRepair.enter (hs : g.Shape) (h : g.AwaitsRepair u) :
    (g.enter n).AwaitsRepair u := by
  obtain ⟨v, hv, hvu⟩ := h
  exact ⟨v, hv, hvu.enter hs⟩

theorem Listed.enter (hs : g.Shape) (hu : u.2 < g.size) (h : g.Listed u) :
    (g.enter n).Listed u := by
  obtain ⟨c, hc, hcu⟩ := h
  have hclass := classAt_enter_of_lt (n := n) hs hu
  rw [hc, Option.map_some] at hclass
  refine ⟨_, hclass, hcu.imp id ?_⟩
  rintro ⟨m, hm, hmu⟩
  exact ⟨m, hm, by rw [canonicalize_enter hs, canonicalize_enter hs, hmu]⟩

theorem unknown_enter (hs : g.Shape) (hn : ∀ a ∈ n.children, a < g.size)
    (h : g.analysis = .empty → ∀ id, g.constantAt? id = none) (ha : g.analysis = .empty)
    (id : ClassId) : (g.enter n).constantAt? id = none := by
  cases hk : (g.enter n).constantAt? id with
  | none => rfl
  | some k =>
    rcases lt_or_eq_of_lt_size_enter (lt_of_constantAt (shape_enter hs) hk) with hlt | rfl
    · rw [constantAt_enter_of_lt hs hlt, h ha id] at hk
      cases hk
    · rw [constantAt_enter_size hs hn, foldNode, ha] at hk
      cases hk

theorem complete_enter (h : Core I g o) (hn : g.Fresh n) :
    (g.enter n).Complete (o.extend g.size n d) where
  used := by
    intro i hi a ha
    rcases lt_or_eq_of_lt_size_enter hi with hi | rfl
    · rw [Origin.node_extend_of_lt hi] at ha ⊢
      have hlt := Nat.lt_trans (h.founded.child_lt i hi a ha) hi
      exact (h.complete.used i hi a ha).enter h.shape hlt
    · rw [Origin.node_extend_self] at ha ⊢
      exact usedBy_enter_size h.shape hn ha
  folded := by
    intro i hi k hk
    rcases lt_or_eq_of_lt_size_enter hi with hi | rfl
    · rw [Origin.node_extend_of_lt hi] at hk ⊢
      rw [foldNode_enter h.shape fun a ha => Nat.lt_trans (h.founded.child_lt i hi a ha) hi] at hk
      rw [constantAt_enter_of_lt h.shape hi]
      exact (h.complete.folded i hi k hk).imp id fun hw => hw.enter h.shape
    · rw [Origin.node_extend_self, foldNode_enter h.shape hn.child_lt] at hk
      rw [constantAt_enter_size h.shape hn.child_lt]
      exact Or.inl hk
  listed := by
    intro i hi
    rcases lt_or_eq_of_lt_size_enter hi with hi | rfl
    · rw [Origin.node_extend_of_lt hi]
      exact (h.complete.listed i hi).enter h.shape hi
    · rw [Origin.node_extend_self]
      exact ⟨_, classAt_of_stored (shape_enter h.shape) (stored_enter_size h.shape hn.child_lt),
        Or.inr ⟨n, by simp, rfl⟩⟩
  const := by
    intro ha i hi k hk
    rcases lt_or_eq_of_lt_size_enter hi with hi | rfl
    · rw [Origin.node_extend_of_lt hi] at hk
      rw [constantAt_enter_of_lt h.shape hi]
      exact h.complete.const ha i hi k hk
    · rw [Origin.node_extend_self] at hk
      have ha' : g.analysis = .constantFolding := ha
      rw [constantAt_enter_size h.shape hn.child_lt, hk, foldNode, ha']
      rfl
  unknown := by
    intro ha i
    have ha' : g.analysis = .empty := ha
    exact unknown_enter h.shape hn.child_lt h.complete.unknown ha' i

theorem known_enter (hs : g.Shape) (h : g.Known o) (hn : g.Fresh n) :
    (g.enter n).Known (o.extend g.size n d) := by
  intro i hi
  rcases lt_or_eq_of_lt_size_enter hi with hi | rfl
  · rw [Origin.node_extend_of_lt hi]
    refine (h i hi).imp ?_ fun hw => hw.enter hs
    rintro ⟨j, hj, hji⟩
    refine ⟨j, ?_, by rw [find_enter hs, find_enter hs, hji]⟩
    rw [canonicalize_enter hs, memo_enter, if_neg]
    · exact hj
    · intro hin
      rw [hin, hn.absent] at hj
      cases hj
  · rw [Origin.node_extend_self]
    refine Or.inl ⟨g.size, ?_, rfl⟩
    rw [canonicalize_enter hs, hn.canonical, memo_enter, if_pos rfl]

theorem sound_enter (h : Core I g o) (hn : g.Fresh n) (hd : I.Holds (n.map o.value) d) :
    (g.enter n).Sound I (o.extend g.size n d) where
  analysis := h.sound.analysis
  holds := by
    intro i hi
    rcases lt_or_eq_of_lt_size_enter hi with hi | rfl
    · rw [Origin.node_extend_of_lt hi, Origin.value_extend_of_lt hi, Origin.map_value_extend]
      · exact h.sound.holds i hi
      · exact fun a ha => Nat.lt_trans (h.founded.child_lt i hi a ha) hi
    · rw [Origin.node_extend_self, Origin.value_extend_self, Origin.map_value_extend hn.child_lt]
      exact hd
  value_find := by
    intro i hi
    rw [find_enter h.shape]
    rcases lt_or_eq_of_lt_size_enter hi with hi | rfl
    · rw [Origin.value_extend_of_lt hi, Origin.value_extend_of_lt (find_lt h.shape hi)]
      exact h.sound.value_find i hi
    · rw [find_of_size_le (Nat.le_refl _)]
  value_const := by
    intro i k hk
    rcases lt_or_eq_of_lt_size_enter (lt_of_constantAt (shape_enter h.shape) hk) with hi | rfl
    · rw [constantAt_enter_of_lt h.shape hi] at hk
      rw [Origin.value_extend_of_lt hi]
      exact h.sound.value_const i k hk
    · rw [constantAt_enter_size h.shape hn.child_lt] at hk
      rw [Origin.value_extend_self]
      exact h.sound.eq_const_of_foldNode hk hd

/-- Entering a node keeps the graph in order. -/
theorem core_enter (h : Core I g o) (hn : g.Fresh n) (hd : I.Holds (n.map o.value) d) :
    Core I (g.enter n) (o.extend g.size n d) where
  shape := shape_enter h.shape
  founded := founded_enter h.shape h.founded hn
  complete := complete_enter h hn
  sound := sound_enter h hn hd

theorem SettledAt.enter {id : ClassId} {c c' : EClass} {k : Constant} (hs : g.Shape)
    (hn : g.memo[n]? = none) (hc : c'.nodes = c.nodes) (h : g.SettledAt id c k) :
    (g.enter n).SettledAt id c' k := by
  obtain ⟨⟨j, hj, hjid⟩, hleaf, hall⟩ := h
  refine ⟨⟨j, ?_, by rw [find_enter hs, hjid]⟩, hc ▸ hleaf, hc ▸ hall⟩
  rw [memo_enter, if_neg]
  · exact hj
  · intro e
    rw [e, hn] at hj
    cases hj

/-- The new class is the only one that may have to be settled. -/
theorem settledBut_enter {p : ClassId → Prop} (hs : g.Shape) (hn : g.memo[n]? = none)
    (h : g.SettledBut p) : (g.enter n).SettledBut fun id => p id ∨ id = g.size := by
  intro id c k hid hc hk
  rw [not_or] at hid
  rw [stored_enter hs, if_neg hid.2] at hc
  obtain ⟨c', hc', rfl⟩ := Option.map_eq_some_iff.1 hc
  exact (h id c' k hid.1 hc' hk).enter hs hn rfl

end EqSat.EGraph
