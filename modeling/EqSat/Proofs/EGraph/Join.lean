import EqSat.Proofs.EGraph.Invariant

/-!
# Absorbing a class keeps the invariant

A join of two classes of one value keeps the graph in order, because it puts on the
worklists what it breaks: usages of the class that was lost may be congruent to others now,
and usages of a class that became known may fold.

    g.Apart x y → mergeConstants x.data y.data = .ok k → o.value x.id = o.value y.id →
      Core I g o → Core I (g.absorb x.id y k) o                                 (core_absorb)
-/

namespace EqSat

theorem mergeConstants_eq_ok {a b c : Option Constant} (h : mergeConstants a b = .ok c) :
    (∀ k, a = some k → c = some k) ∧ (∀ k, b = some k → c = some k) ∧
      (∀ k, c = some k → a = some k ∨ b = some k) := by
  rcases a with _ | x <;> rcases b with _ | y <;> simp only [mergeConstants] at h
  · cases h
    simp
  · cases h
    simp
  · cases h
    simp
  · split at h
    · next hxy =>
      cases h
      simp [hxy]
    · cases h

theorem mergeConstants_self {a c : Option Constant} (h : mergeConstants a a = .ok c) : c = a := by
  cases a with
  | none =>
    cases h
    rfl
  | some k => exact (mergeConstants_eq_ok h).1 k rfl

namespace EGraph

variable {D : Type} {I : Meaning D} {g : EGraph} {o : Origin D} {x y : EClass}
  {k : Option Constant} {u : Usage}

theorem canonicalize_absorb (hs : g.Shape) (hxy : g.Apart x y) (n : ENode) :
    (g.absorb x.id y k).canonicalize n =
      (g.canonicalize n).map fun z => if z = y.id then x.id else z := by
  rw [canonicalize, canonicalize, Node.map_map]
  exact Node.map_congr fun a _ => find_absorb hs hxy a

theorem Same.absorb {v : Usage} (hs : g.Shape) (hxy : g.Apart x y) (h : g.Same u v) :
    (g.absorb x.id y k).Same u v := by
  constructor
  · rw [canonicalize_absorb hs hxy, canonicalize_absorb hs hxy, h.1]
  · exact find_absorb_of_eq hs hxy h.2

theorem Stands.absorb (hs : g.Shape) (hxy : g.Apart x y) (h : g.Stands o u) :
    (g.absorb x.id y k).Stands o u := by
  obtain ⟨i, hi, hu⟩ := h
  exact ⟨i, by rw [size_absorb]; exact hi, hu.absorb hs hxy⟩

/-- What stands in the lost class stands in the other. -/
theorem Stands.absorb_right {n : ENode} (hs : g.Shape) (hxy : g.Apart x y)
    (h : g.Stands o (n, y.id)) : (g.absorb x.id y k).Stands o (n, x.id) := by
  refine (h.absorb hs hxy).of_same ⟨rfl, ?_⟩
  rw [find_absorb hs hxy, find_absorb hs hxy, find_of_stored hs hxy.left,
    find_of_stored hs hxy.right, if_neg hxy.ne, if_pos rfl]

theorem mem_pending_absorb : u ∈ (g.absorb x.id y k).pending ↔ u ∈ y.parents ∨ u ∈ g.pending :=
  mem_pushUsages

theorem foldPending_absorb (hxy : g.Apart x y) :
    (g.absorb x.id y k).foldPending =
      if k ≠ y.data then pushUsages y.parents
        (if k ≠ x.data then pushUsages x.parents g.foldPending else g.foldPending)
      else if k ≠ x.data then pushUsages x.parents g.foldPending else g.foldPending := by
  unfold EGraph.absorb
  rw [hxy.left]
  rfl

theorem mem_foldPending_absorb (hxy : g.Apart x y) :
    u ∈ (g.absorb x.id y k).foldPending ↔
      (k ≠ x.data ∧ u ∈ x.parents) ∨ (k ≠ y.data ∧ u ∈ y.parents) ∨ u ∈ g.foldPending := by
  rw [foldPending_absorb hxy]
  split <;> split <;> grind [mem_pushUsages]

theorem founded_absorb (hs : g.Shape) (hxy : g.Apart x y) (h : g.Founded o) :
    (g.absorb x.id y k).Founded o where
  child_lt := fun i hi => h.child_lt i (by rw [size_absorb] at hi; exact hi)
  memo := fun n id hn => (h.memo n id hn).absorb hs hxy
  nodes := by
    intro id c hc n hn
    rw [stored_absorb hs hxy] at hc
    split at hc
    · cases hc
    · split at hc
      · next hid =>
        cases hc
        rw [hid]
        rcases Array.mem_append.1 hn with hn | hn
        · exact (h.nodes x.id x hxy.left n hn).absorb hs hxy
        · exact (h.nodes y.id y hxy.right n hn).absorb_right hs hxy
      · exact (h.nodes id c hc n hn).absorb hs hxy
  parents := by
    intro id c hc v hv
    obtain ⟨j, c', hc', hv⟩ := mem_parents_absorb hs hxy hc hv
    exact (h.parents j c' hc' v hv).absorb hs hxy
  pending := by
    intro v hv
    rcases mem_pending_absorb.1 hv with hv | hv
    · exact (h.parents y.id y hxy.right v hv).absorb hs hxy
    · exact (h.pending v hv).absorb hs hxy
  foldPending := by
    intro v hv
    rcases (mem_foldPending_absorb hxy).1 hv with ⟨-, hv⟩ | ⟨-, hv⟩ | hv
    · exact (h.parents x.id x hxy.left v hv).absorb hs hxy
    · exact (h.parents y.id y hxy.right v hv).absorb hs hxy
    · exact (h.foldPending v hv).absorb hs hxy

/-- The class of an id after the join: the joined class, or the one it was. -/
theorem classAt_absorb (hs : g.Shape) (hxy : g.Apart x y) (a : ClassId) :
    (g.absorb x.id y k).classAt? a =
      if g.find a = x.id ∨ g.find a = y.id then
        some { x with data := k, nodes := x.nodes ++ y.nodes, parents := x.parents ++ y.parents }
      else g.classAt? a := by
  unfold classAt?
  rw [find_absorb hs hxy]
  by_cases hay : g.find a = y.id
  · rw [if_pos hay, stored_absorb hs hxy, if_neg hxy.ne, if_pos rfl, if_pos (Or.inr hay)]
  · rw [if_neg hay, stored_absorb hs hxy, if_neg hay]
    by_cases hax : g.find a = x.id
    · rw [if_pos hax, if_pos (Or.inl hax)]
    · rw [if_neg hax, if_neg (by tauto)]

/-- An id of one of the two classes: its class is that one. -/
theorem classAt_of_find_eq (hxy : g.stored? x.id = some x) {a : ClassId} {c : EClass}
    (ha : g.find a = x.id) (hc : g.classAt? a = some c) : c = x := by
  rw [classAt?, ha, hxy] at hc
  exact (Option.some.inj hc).symm

theorem UsedBy.absorb {a : ClassId} (hs : g.Shape) (hxy : g.Apart x y) (h : g.UsedBy a u) :
    (g.absorb x.id y k).UsedBy a u := by
  obtain ⟨c, hc, v, hv, hvu⟩ := h
  unfold UsedBy
  rw [classAt_absorb hs hxy]
  by_cases hax : g.find a = x.id
  · obtain rfl := classAt_of_find_eq hxy.left hax hc
    rw [if_pos (Or.inl hax)]
    exact ⟨_, rfl, v, Array.mem_append_left _ hv, hvu.absorb hs hxy⟩
  · by_cases hay : g.find a = y.id
    · obtain rfl := classAt_of_find_eq hxy.right hay hc
      rw [if_pos (Or.inr hay)]
      exact ⟨_, rfl, v, Array.mem_append_right _ hv, hvu.absorb hs hxy⟩
    · rw [if_neg (by tauto)]
      exact ⟨c, hc, v, hv, hvu.absorb hs hxy⟩

theorem Listed.absorb (hs : g.Shape) (hxy : g.Apart x y)
    (hk : mergeConstants x.data y.data = .ok k) (h : g.Listed u) :
    (g.absorb x.id y k).Listed u := by
  obtain ⟨c, hc, hcu⟩ := h
  have hcan : ∀ n, g.canonicalize n = g.canonicalize u.1 →
      (g.absorb x.id y k).canonicalize n = (g.absorb x.id y k).canonicalize u.1 := by
    intro n hn
    rw [canonicalize_absorb hs hxy, canonicalize_absorb hs hxy, hn]
  obtain ⟨hkx, hky, -⟩ := mergeConstants_eq_ok hk
  unfold Listed
  rw [classAt_absorb hs hxy]
  by_cases hax : g.find u.2 = x.id
  · obtain rfl := classAt_of_find_eq hxy.left hax hc
    rw [if_pos (Or.inl hax)]
    refine ⟨_, rfl, hcu.imp (fun ⟨hd, hu⟩ => ⟨?_, hu⟩) fun ⟨n, hn, hnu⟩ => ?_⟩
    · obtain ⟨l, hl⟩ := Option.ne_none_iff_exists'.1 hd
      exact Option.ne_none_iff_exists'.2 ⟨l, hkx l hl⟩
    · exact ⟨n, Array.mem_append_left _ hn, hcan n hnu⟩
  · by_cases hay : g.find u.2 = y.id
    · obtain rfl := classAt_of_find_eq hxy.right hay hc
      rw [if_pos (Or.inr hay)]
      refine ⟨_, rfl, hcu.imp (fun ⟨hd, hu⟩ => ⟨?_, hu⟩) fun ⟨n, hn, hnu⟩ => ?_⟩
      · obtain ⟨l, hl⟩ := Option.ne_none_iff_exists'.1 hd
        exact Option.ne_none_iff_exists'.2 ⟨l, hky l hl⟩
      · exact ⟨n, Array.mem_append_right _ hn, hcan n hnu⟩
    · rw [if_neg (by tauto)]
      exact ⟨c, hc, hcu.imp id fun ⟨n, hn, hnu⟩ => ⟨n, hn, hcan n hnu⟩⟩

theorem constantAt_of_find_eq_stored (hs : g.Shape) (hx : g.stored? x.id = some x) {a : ClassId}
    (ha : g.find a = x.id) : g.constantAt? a = x.data := by
  rw [← constantAt_find hs, ha, constantAt_of_stored hs hx]

/-- What was known stays known. -/
theorem constantAt_absorb_of_eq (hs : g.Shape) (hxy : g.Apart x y)
    (hk : mergeConstants x.data y.data = .ok k) {a : ClassId} {c : Constant}
    (ha : g.constantAt? a = some c) : (g.absorb x.id y k).constantAt? a = some c := by
  obtain ⟨hkx, hky, -⟩ := mergeConstants_eq_ok hk
  rw [constantAt_absorb hs hxy]
  split
  · next hf =>
    rcases hf with hf | hf
    · rw [constantAt_of_find_eq_stored hs hxy.left hf] at ha
      exact hkx c ha
    · rw [constantAt_of_find_eq_stored hs hxy.right hf] at ha
      exact hky c ha
  · exact ha

/-- A usage over a class that became known is evaluated again. -/
theorem awaitsFold_absorb (hs : g.Shape) (hxy : g.Apart x y) {a : ClassId}
    (ha : (g.absorb x.id y k).constantAt? a ≠ g.constantAt? a) (hu : g.UsedBy a u) :
    (g.absorb x.id y k).AwaitsFold u := by
  obtain ⟨c, hc, v, hv, hvu⟩ := hu
  rw [constantAt_absorb hs hxy] at ha
  split at ha
  · next hf =>
    refine ⟨v, (mem_foldPending_absorb hxy).2 ?_, hvu.absorb hs hxy⟩
    rcases hf with hf | hf
    · obtain rfl := classAt_of_find_eq hxy.left hf hc
      rw [constantAt_of_find_eq_stored hs hxy.left hf] at ha
      exact Or.inl ⟨ha, hv⟩
    · obtain rfl := classAt_of_find_eq hxy.right hf hc
      rw [constantAt_of_find_eq_stored hs hxy.right hf] at ha
      exact Or.inr (Or.inl ⟨ha, hv⟩)
  · exact absurd rfl ha

theorem AwaitsFold.absorb (hs : g.Shape) (hxy : g.Apart x y) (h : g.AwaitsFold u) :
    (g.absorb x.id y k).AwaitsFold u := by
  obtain ⟨v, hv, hvu⟩ := h
  exact ⟨v, (mem_foldPending_absorb hxy).2 (Or.inr (Or.inr hv)), hvu.absorb hs hxy⟩

theorem unknown_absorb (hs : g.Shape) (hxy : g.Apart x y)
    (hk : mergeConstants x.data y.data = .ok k)
    (h : g.analysis = .empty → ∀ i, g.constantAt? i = none) (ha : g.analysis = .empty)
    (i : ClassId) : (g.absorb x.id y k).constantAt? i = none := by
  have hx : x.data = none := by
    rw [← constantAt_of_stored hs hxy.left]
    exact h ha x.id
  have hy : y.data = none := by
    rw [← constantAt_of_stored hs hxy.right]
    exact h ha y.id
  rw [hx, hy] at hk
  cases hk
  rw [constantAt_absorb hs hxy, h ha i]
  split <;> rfl

theorem complete_absorb (hs : g.Shape) (hxy : g.Apart x y)
    (hk : mergeConstants x.data y.data = .ok k) (h : g.Complete o) :
    (g.absorb x.id y k).Complete o where
  used := fun i hi a ha => (h.used i (by rw [size_absorb] at hi; exact hi) a ha).absorb hs hxy
  folded := by
    intro i hi c hc
    rw [size_absorb] at hi
    by_cases hsame : ∀ a ∈ (o.node i).children,
        (g.absorb x.id y k).constantAt? a = g.constantAt? a
    · have hfold : g.foldNode (o.node i) = some c := by
        rw [← hc, foldNode, foldNode, Node.map_congr hsame]
        rfl
      rcases h.folded i hi c hfold with hi' | hi'
      · exact Or.inl (constantAt_absorb_of_eq hs hxy hk hi')
      · exact Or.inr (hi'.absorb hs hxy)
    · push Not at hsame
      obtain ⟨a, ha, hne⟩ := hsame
      exact Or.inr (awaitsFold_absorb hs hxy hne (h.used i hi a ha))
  listed := fun i hi => (h.listed i (by rw [size_absorb] at hi; exact hi)).absorb hs hxy hk
  const := by
    intro ha i hi c hc
    rw [size_absorb] at hi
    exact constantAt_absorb_of_eq hs hxy hk (h.const ha i hi c hc)
  unknown := by
    intro ha i
    have ha' : g.analysis = .empty := ha
    exact unknown_absorb hs hxy hk h.unknown ha' i

theorem sound_absorb (hs : g.Shape) (hxy : g.Apart x y)
    (hk : mergeConstants x.data y.data = .ok k) (hv : o.value x.id = o.value y.id)
    (h : g.Sound I o) : (g.absorb x.id y k).Sound I o where
  analysis := h.analysis
  holds := fun i hi => h.holds i (by rw [size_absorb] at hi; exact hi)
  value_find := by
    intro i hi
    rw [size_absorb] at hi
    rw [find_absorb hs hxy, ← h.value_find i hi]
    split
    · next hiy => rw [hiy, hv]
    · rfl
  value_const := by
    intro i c hc
    rw [constantAt_absorb hs hxy] at hc
    split at hc
    · next hf =>
      have hi : i < g.size := by
        rw [← find_lt_iff hs]
        rcases hf with hf | hf
        · exact hf ▸ lt_of_stored hs hxy.left
        · exact hf ▸ lt_of_stored hs hxy.right
      have hvi : o.value i = o.value x.id := by
        rw [← h.value_find i hi]
        rcases hf with hf | hf
        · rw [hf]
        · rw [hf, hv]
      rw [hvi]
      rcases (mergeConstants_eq_ok hk).2.2 c hc with hx | hy
      · exact h.value_const _ _ (by rw [constantAt_of_stored hs hxy.left, hx])
      · rw [hv]
        exact h.value_const _ _ (by rw [constantAt_of_stored hs hxy.right, hy])
    · exact h.value_const i c hc

/-- A join of two classes of one value keeps the graph in order. -/
theorem core_absorb (h : Core I g o) (hxy : g.Apart x y)
    (hk : mergeConstants x.data y.data = .ok k) (hv : o.value x.id = o.value y.id) :
    Core I (g.absorb x.id y k) o where
  shape := shape_absorb h.shape hxy
  founded := founded_absorb h.shape hxy h.founded
  complete := complete_absorb h.shape hxy hk h.complete
  sound := sound_absorb h.shape hxy hk hv h.sound

/-- Entered nodes are found after a join, if the memo knew them up to the join. -/
theorem known_absorb (h : Core I g o) (hxy : g.Apart x y)
    (hknown : ∀ i, i < g.size → (∃ j, g.memo[g.canonicalize (o.node i)]? = some j ∧
      (g.absorb x.id y k).find j = (g.absorb x.id y k).find i) ∨ g.AwaitsRepair (o.node i, i)) :
    (g.absorb x.id y k).Known o := by
  intro i hi
  rw [size_absorb] at hi
  rcases hknown i hi with ⟨j, hj, hji⟩ | ⟨v, hv, hvu⟩
  · by_cases hcan : (g.absorb x.id y k).canonicalize (o.node i) = g.canonicalize (o.node i)
    · refine Or.inl ⟨j, ?_, hji⟩
      rw [hcan]
      exact hj
    · -- the canonical form has changed, so the lost class is used and the usage is pending
      have hchild : ∃ a ∈ (o.node i).children, g.find a = y.id := by
        by_contra hno
        push Not at hno
        refine hcan (Node.map_congr fun a ha => ?_)
        rw [find_absorb h.shape hxy, if_neg (hno a ha)]
      obtain ⟨a, ha, hay⟩ := hchild
      obtain ⟨c, hc, v, hv, hvu⟩ := h.complete.used i hi a ha
      obtain rfl := classAt_of_find_eq hxy.right hay hc
      exact Or.inr ⟨v, mem_pending_absorb.2 (Or.inl hv), hvu.absorb h.shape hxy⟩
  · exact Or.inr ⟨v, mem_pending_absorb.2 (Or.inr hv), hvu.absorb h.shape hxy⟩

theorem SettledAt.absorb {id : ClassId} {c : EClass} {l : Constant} (hs : g.Shape)
    (hxy : g.Apart x y) (hid : id ≠ y.id) (h : g.SettledAt id c l) :
    (g.absorb x.id y k).SettledAt id c l := by
  obtain ⟨⟨j, hj, hjid⟩, hleaf, hall⟩ := h
  exact ⟨⟨j, hj, by rw [find_absorb hs hxy, hjid, if_neg hid]⟩, hleaf, hall⟩

/-- The joined class is the only one that may have to be settled. -/
theorem settledBut_absorb {p : ClassId → Prop} (hs : g.Shape) (hxy : g.Apart x y)
    (h : g.SettledBut p) : (g.absorb x.id y k).SettledBut fun id =>
      (p id ∧ id ≠ y.id) ∨ id = x.id := by
  intro id c l hid hc hl
  rw [stored_absorb hs hxy] at hc
  split at hc
  · cases hc
  · next hy =>
    split at hc
    · next hx => exact absurd (Or.inr hx) hid
    · exact (h id c l (fun hp => hid (Or.inl ⟨hp, hy⟩)) hc hl).absorb hs hxy hy

end EGraph

end EqSat
