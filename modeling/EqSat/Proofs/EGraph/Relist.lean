import EqSat.Proofs.EGraph.Invariant

/-!
# Listing classes anew

Pruning a class and tidying all of them change what the classes list, and nothing else.  A
graph stays in order if each class goes on to list the same usages, as far as the graph can
tell, and the same nodes, those apart that a known constant makes superfluous.

    Relisted g g' → Core I g o → Core I g' o                                  (core_relisted)
-/

namespace EqSat.EGraph

variable {D : Type} {I : Meaning D} {g g' : EGraph} {o : Origin D} {c c' : EClass} {id : ClassId}

/-- A class that lists what another did. -/
structure ListsAs (g : EGraph) (c c' : EClass) : Prop where
  id_eq : c'.id = c.id
  data : c'.data = c.data
  nodes : ∀ n ∈ c'.nodes, ∃ m ∈ c.nodes, g.canonicalize n = g.canonicalize m
  kept : ∀ m ∈ c.nodes, (c.data ≠ none ∧ m.isLeaf = false) ∨
    ∃ n ∈ c'.nodes, g.canonicalize n = g.canonicalize m
  parents : ∀ u ∈ c'.parents, ∃ v ∈ c.parents, g.Same u v
  used : ∀ v ∈ c.parents, ∃ u ∈ c'.parents, g.Same u v

/-- A graph whose classes are listed anew. -/
structure Relisted (g g' : EGraph) : Prop where
  analysis : g'.analysis = g.analysis
  links : g'.links = g.links
  size_classes : g'.classes.size = g.classes.size
  memo : g'.memo = g.memo
  pending : g'.pending = g.pending
  foldPending : g'.foldPending = g.foldPending
  back : ∀ id c', g'.stored? id = some c' → ∃ c, g.stored? id = some c ∧ g.ListsAs c c'
  forth : ∀ id c, g.stored? id = some c → ∃ c', g'.stored? id = some c' ∧ g.ListsAs c c'

theorem listsAs_refl (g : EGraph) (c : EClass) : g.ListsAs c c where
  id_eq := rfl
  data := rfl
  nodes := fun n hn => ⟨n, hn, rfl⟩
  kept := fun m hm => Or.inr ⟨m, hm, rfl⟩
  parents := fun u hu => ⟨u, hu, same_refl u⟩
  used := fun v hv => ⟨v, hv, same_refl v⟩

namespace Relisted

theorem find_eq (h : Relisted g g') (x : ClassId) : g'.find x = g.find x := by
  rw [find, find, h.links]

theorem size_eq (h : Relisted g g') : g'.size = g.size := by rw [size, size, h.links]

theorem canonicalize_eq (h : Relisted g g') (n : ENode) :
    g'.canonicalize n = g.canonicalize n := Node.map_congr fun a _ => h.find_eq a

theorem same_iff (h : Relisted g g') {u v : Usage} : g'.Same u v ↔ g.Same u v := by
  rw [Same, Same, h.canonicalize_eq, h.canonicalize_eq, h.find_eq, h.find_eq]

theorem stands_iff (h : Relisted g g') {u : Usage} : g'.Stands o u ↔ g.Stands o u := by
  rw [Stands, Stands, h.size_eq]
  exact exists_congr fun i => and_congr_right fun _ => h.same_iff

theorem classAt (h : Relisted g g') {a : ClassId} (hc : g.classAt? a = some c) :
    ∃ c', g'.classAt? a = some c' ∧ g.ListsAs c c' := by
  rw [classAt?, h.find_eq]
  exact h.forth _ c hc

theorem constantAt_eq (h : Relisted g g') (a : ClassId) :
    g'.constantAt? a = g.constantAt? a := by
  cases hc : g.classAt? a with
  | some c =>
    obtain ⟨c', hc', hl⟩ := h.classAt hc
    rw [constantAt?, constantAt?, hc, hc', Option.bind_some, Option.bind_some, hl.data]
  | none =>
    cases hc' : g'.classAt? a with
    | none => rw [constantAt?, constantAt?, hc, hc']
    | some c' =>
      rw [classAt?, h.find_eq] at hc'
      obtain ⟨c, hc'', -⟩ := h.back _ c' hc'
      rw [classAt?, hc''] at hc
      cases hc

theorem foldNode_eq (h : Relisted g g') (n : ENode) : g'.foldNode n = g.foldNode n := by
  rw [foldNode, foldNode, h.analysis, Node.map_congr fun a _ => h.constantAt_eq a]

theorem shape (h : Relisted g g') (hs : g.Shape) : g'.Shape where
  forest := by
    rw [h.links]
    exact hs.forest
  size_classes := by rw [h.size_classes, h.size_eq, hs.size_classes]
  stored_iff := by
    intro id
    rw [h.size_eq, h.find_eq, ← hs.stored_iff id]
    constructor
    · rintro ⟨c', hc'⟩
      obtain ⟨c, hc, -⟩ := h.back id c' hc'
      exact ⟨c, hc⟩
    · rintro ⟨c, hc⟩
      obtain ⟨c', hc', -⟩ := h.forth id c hc
      exact ⟨c', hc'⟩
  id_eq := by
    intro id c' hc'
    obtain ⟨c, hc, hl⟩ := h.back id c' hc'
    rw [hl.id_eq, hs.id_eq id c hc]

theorem founded (h : Relisted g g') (hf : g.Founded o) : g'.Founded o where
  child_lt := fun i hi => hf.child_lt i (by rw [← h.size_eq]; exact hi)
  memo := by
    intro n id hn
    rw [h.memo] at hn
    exact h.stands_iff.2 (hf.memo n id hn)
  nodes := by
    intro id c' hc' n hn
    obtain ⟨c, hc, hl⟩ := h.back id c' hc'
    obtain ⟨m, hm, hnm⟩ := hl.nodes n hn
    exact h.stands_iff.2 ((hf.nodes id c hc m hm).of_same ⟨hnm, rfl⟩)
  parents := by
    intro id c' hc' u hu
    obtain ⟨c, hc, hl⟩ := h.back id c' hc'
    obtain ⟨v, hv, huv⟩ := hl.parents u hu
    exact h.stands_iff.2 ((hf.parents id c hc v hv).of_same huv)
  pending := by
    rw [h.pending]
    exact fun u hu => h.stands_iff.2 (hf.pending u hu)
  foldPending := by
    rw [h.foldPending]
    exact fun u hu => h.stands_iff.2 (hf.foldPending u hu)

theorem usedBy (h : Relisted g g') {a : ClassId} {u : Usage} (hu : g.UsedBy a u) :
    g'.UsedBy a u := by
  obtain ⟨c, hc, v, hv, hvu⟩ := hu
  obtain ⟨c', hc', hl⟩ := h.classAt hc
  obtain ⟨w, hw, hwv⟩ := hl.used v hv
  exact ⟨c', hc', w, hw, h.same_iff.2 (hwv.trans hvu)⟩

theorem awaitsFold_iff (h : Relisted g g') {u : Usage} : g'.AwaitsFold u ↔ g.AwaitsFold u := by
  rw [AwaitsFold, AwaitsFold, h.foldPending]
  exact exists_congr fun v => and_congr_right fun _ => h.same_iff

theorem awaitsRepair_iff (h : Relisted g g') {u : Usage} :
    g'.AwaitsRepair u ↔ g.AwaitsRepair u := by
  rw [AwaitsRepair, AwaitsRepair, h.pending]
  exact exists_congr fun v => and_congr_right fun _ => h.same_iff

theorem listed (h : Relisted g g') {u : Usage} (hu : g.Listed u) : g'.Listed u := by
  obtain ⟨c, hc, hcu⟩ := hu
  obtain ⟨c', hc', hl⟩ := h.classAt hc
  refine ⟨c', hc', ?_⟩
  rw [hl.data]
  rcases hcu with hcu | ⟨m, hm, hmu⟩
  · exact Or.inl hcu
  · rcases hl.kept m hm with ⟨hd, hleaf⟩ | ⟨n, hn, hnm⟩
    · refine Or.inl ⟨hd, ?_⟩
      -- canonical forms have the head of the node
      obtain ⟨m', i⟩ := u
      revert hmu hleaf
      cases m <;> cases m' <;> simp [canonicalize, Node.map, Node.isLeaf]
    · exact Or.inr ⟨n, hn, by rw [h.canonicalize_eq, h.canonicalize_eq, hnm, hmu]⟩

theorem complete (h : Relisted g g') (hc : g.Complete o) : g'.Complete o where
  used := fun i hi a ha => h.usedBy (hc.used i (by rw [← h.size_eq]; exact hi) a ha)
  folded := by
    intro i hi k hk
    rw [h.size_eq] at hi
    rw [h.foldNode_eq] at hk
    rw [h.constantAt_eq, h.awaitsFold_iff]
    exact hc.folded i hi k hk
  listed := fun i hi => h.listed (hc.listed i (by rw [← h.size_eq]; exact hi))
  const := by
    intro ha i hi k hk
    rw [h.analysis] at ha
    rw [h.size_eq] at hi
    rw [h.constantAt_eq]
    exact hc.const ha i hi k hk
  unknown := by
    intro ha i
    rw [h.analysis] at ha
    rw [h.constantAt_eq]
    exact hc.unknown ha i

theorem sound (h : Relisted g g') (hs : g.Sound I o) : g'.Sound I o where
  analysis := h.analysis.trans hs.analysis
  holds := fun i hi => hs.holds i (by rw [← h.size_eq]; exact hi)
  value_find := by
    intro i hi
    rw [h.size_eq] at hi
    rw [h.find_eq, hs.value_find i hi]
  value_const := by
    intro i k hk
    rw [h.constantAt_eq] at hk
    exact hs.value_const i k hk

theorem known (h : Relisted g g') (hk : g.Known o) : g'.Known o := by
  intro i hi
  rw [h.size_eq] at hi
  rw [Found, h.canonicalize_eq, h.memo, h.awaitsRepair_iff, h.find_eq]
  refine (hk i hi).imp_left ?_
  rintro ⟨j, hj, hji⟩
  exact ⟨j, hj, by rw [h.find_eq, hji]⟩

/-- Listing the leaf of its constant and leaves only, a class does so when listed anew. -/
theorem settledAt (h : Relisted g g') (hl : g.ListsAs c c') {k : Constant}
    (hc : g.SettledAt id c k) : g'.SettledAt id c' k := by
  obtain ⟨⟨j, hj, hjid⟩, hleaf, hall⟩ := hc
  refine ⟨⟨j, by rw [h.memo]; exact hj, by rw [h.find_eq, hjid]⟩, ?_, ?_⟩
  · rcases hl.kept _ hleaf with ⟨-, hno⟩ | ⟨n, hn, hnk⟩
    · cases hno
    · cases n <;> simp only [canonicalize, Node.map, reduceCtorEq] at hnk
      rwa [hnk] at hn
  · intro n hn
    obtain ⟨m, hm, hnm⟩ := hl.nodes n hn
    have hmleaf := hall m hm
    cases n <;> cases m <;> simp [canonicalize, Node.map, Node.isLeaf] at hnm hmleaf ⊢

theorem settledBut (h : Relisted g g') {p : ClassId → Prop} (hp : g.SettledBut p) :
    g'.SettledBut p := by
  intro id c' k hid hc' hk
  obtain ⟨c, hc, hl⟩ := h.back id c' hc'
  rw [hl.data] at hk
  exact h.settledAt hl (hp id c k hid hc hk)

end Relisted

/-- A graph stays in order when its classes are listed anew. -/
theorem core_relisted (h : Relisted g g') (hc : Core I g o) : Core I g' o where
  shape := h.shape hc.shape
  founded := h.founded hc.founded
  complete := h.complete hc.complete
  sound := h.sound hc.sound

/-! ## Pruning -/

/-- A class of known constant may lose its other nodes. -/
theorem listsAs_prune (hdata : c.data ≠ none) : g.ListsAs c c.prune where
  id_eq := rfl
  data := rfl
  nodes := by
    intro n hn
    exact ⟨n, (Array.mem_filter.1 hn).1, rfl⟩
  kept := by
    intro m hm
    cases hleaf : m.isLeaf with
    | false => exact Or.inl ⟨hdata, rfl⟩
    | true => exact Or.inr ⟨m, Array.mem_filter.2 ⟨hm, hleaf⟩, rfl⟩
  parents := fun u hu => ⟨u, hu, same_refl u⟩
  used := fun v hv => ⟨v, hv, same_refl v⟩

theorem relisted_prune (hc : g.stored? id = some c) (hdata : c.data ≠ none) :
    Relisted g (g.modifyClass id EClass.prune) where
  analysis := rfl
  links := rfl
  size_classes := Array.size_modify
  memo := rfl
  pending := rfl
  foldPending := rfl
  back := by
    intro j d' hd'
    rw [stored_modifyClass] at hd'
    split at hd'
    · next hj =>
      subst hj
      rw [hc] at hd'
      cases hd'
      exact ⟨c, hc, listsAs_prune hdata⟩
    · exact ⟨d', hd', listsAs_refl g d'⟩
  forth := by
    intro j d hd
    rw [stored_modifyClass]
    split
    · next hj =>
      subst hj
      rw [hc] at hd
      cases hd
      exact ⟨c.prune, by rw [hc]; rfl, listsAs_prune hdata⟩
    · exact ⟨d, hd, listsAs_refl g d⟩

end EqSat.EGraph
