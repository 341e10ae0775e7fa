import EqSat.Proofs.EGraph.Rebuild
import EqSat.Proofs.Represented

/-!
# Reachable graphs

A graph is reached from the empty one by adding nodes, joining classes and rebuilding, also where
some of these calls ended with a conflict.  What a conflict cuts short may leave constants out of
date.  But at all times the entries of the graph (in the memo, among the parents of a class, to be
repaired) are witnessed by the classes they name.  Every primitive keeps that, whatever it is
applied to, and no class ever loses the trees it represents without representing smaller ones.

    Backed.of_grows      what a primitive has to keep
    leads_rebuild        a call leads from a backed graph to a backed one, also when it fails
    Reached.grounded     every class of a reachable graph represents a tree
-/

namespace EqSat.EGraph

variable {g g' : EGraph} {u v : Usage} {x y : EClass} {a b id : ClassId} {n : ENode}
  {data : Option Constant} {rest : List Usage}

/-! ## Entries -/

/-- A usage that the graph remembers. -/
inductive Entry (g : EGraph) (u : Usage) : Prop where
  | memo (h : g.memo[u.1]? = some u.2)
  | parent {id c} (hc : g.stored? id = some c) (hu : u ∈ c.parents)
  | pending (hu : u ∈ g.pending)

/-- Every class represents a tree, and every entry is witnessed. -/
structure Backed (g : EGraph) : Prop extends Grounded g where
  entry : ∀ u, g.Entry u → g.Witnessed u

theorem backed_empty (analysis : Analysis) : (empty analysis).Backed where
  shape := shape_empty analysis
  child_lt := by
    intro id n hn
    obtain ⟨c, hc, -⟩ := mem_nodesAt.1 hn
    simp [classAt?, stored?, empty] at hc
  tree := fun id hid => absurd hid (Nat.not_lt_zero id)
  entry := by
    rintro u (h | ⟨hc, -⟩ | h)
    · simp [empty] at h
    · simp [stored?, empty] at hc
    · simp [empty] at h

/-- What a change has to keep. -/
theorem Backed.of_grows (h : g.Backed) (hgrows : Grows g g') (hs : g'.Shape)
    (hchild : ∀ id n, n ∈ g'.nodesAt id → ∀ a ∈ n.children, a < g'.size)
    (htree : ∀ id, g.size ≤ id → id < g'.size → ∃ t, g'.Represents t id)
    (hentry : ∀ u, g'.Entry u → g'.Witnessed u ∨ ∃ v, g.Witnessed v ∧ g.Same u v) :
    g'.Backed where
  shape := hs
  child_lt := hchild
  tree := by
    intro id hid
    by_cases hold : id < g.size
    · obtain ⟨t, ht⟩ := h.tree id hold
      obtain ⟨t', ht', -⟩ := hgrows.covers ht
      exact ⟨t', ht'⟩
    · exact htree id (Nat.le_of_not_lt hold) hid
  entry := by
    intro u hu
    rcases hentry u hu with hw | ⟨v, hv, huv⟩
    · exact hw
    · exact hgrows.witnessed (hv.of_same huv)

/-! ## Primitives -/

/-- Only the memo, the worklists and the constants differ. -/
structure Relabels (g g' : EGraph) : Prop where
  links : g'.links = g.links
  shape : g'.Shape
  lists : ∀ id, (g'.stored? id).map (fun c => (c.nodes, c.parents)) =
    (g.stored? id).map fun c => (c.nodes, c.parents)

theorem Relabels.find_eq (h : Relabels g g') (id : ClassId) : g'.find id = g.find id := by
  rw [find, find, h.links]

theorem Relabels.nodesAt_eq (h : Relabels g g') (id : ClassId) : g'.nodesAt id = g.nodesAt id := by
  have hlists := congrArg (Option.map fun l => l.1.toList) (h.lists (g.find id))
  have hnodes : ∀ g : EGraph, g.nodesAt id =
      ((g.stored? (g.find id)).map fun c => c.nodes.toList).getD [] := by
    intro g
    rw [nodesAt, classAt?]
    cases g.stored? (g.find id) <;> rfl
  rw [Option.map_map, Option.map_map] at hlists
  rw [hnodes, hnodes, h.find_eq]
  exact congrArg (Option.getD · []) hlists

theorem Relabels.grows (h : Relabels g g') : Grows g g' where
  size_le := by rw [size, size, h.links]
  find := fun a b hab => by rw [h.find_eq, h.find_eq, hab]
  nodes := fun id n hn => witnessed_of_mem (by rwa [h.nodesAt_eq])

theorem Relabels.backed (h : Relabels g g') (hb : g.Backed)
    (hmemo : ∀ u : Usage, g'.memo[u.1]? = some u.2 → g.Witnessed u)
    (hpending : ∀ u ∈ g'.pending, g.Witnessed u) : g'.Backed := by
  have hsize : g'.size = g.size := by rw [size, size, h.links]
  refine hb.of_grows h.grows h.shape ?_ ?_ fun u hu => .inr ⟨u, ?_, same_refl u⟩
  · intro id n hn a ha
    rw [h.nodesAt_eq] at hn
    rw [hsize]
    exact hb.child_lt id n hn a ha
  · intro id hle hlt
    rw [hsize] at hlt
    exact absurd hlt (Nat.not_lt_of_le hle)
  · rcases hu with hu | @⟨id, c', hc', hu⟩ | hu
    · exact hmemo u hu
    · have hlists := h.lists id
      rw [hc'] at hlists
      obtain ⟨c, hc, heq⟩ := Option.map_eq_some_iff.1 hlists.symm
      simp only [Prod.mk.injEq] at heq
      exact hb.entry u (.parent hc (by rwa [heq.2]))
    · exact hpending u hu

theorem relabels_of_classes_eq (hs : g.Shape) (hl : g'.links = g.links)
    (hc : g'.classes = g.classes) : Relabels g g' := by
  have hstored : ∀ id, g'.stored? id = g.stored? id := fun id => by rw [stored?, stored?, hc]
  have hfind : ∀ id, g'.find id = g.find id := fun id => by rw [find, find, hl]
  have hsize : g'.size = g.size := by rw [size, size, hl]
  refine ⟨hl, ⟨hl ▸ hs.forest, ?_, fun id => ?_, fun id c => ?_⟩, fun id => by rw [hstored]⟩
  · rw [hc, hsize, hs.size_classes]
  · simp only [hstored, hsize, hfind]
    exact hs.stored_iff id
  · rw [hstored]
    exact hs.id_eq id c

/-- A usage that is put off, or taken up, leaves the graph backed. -/
theorem backed_pop (hb : g.Backed) (hrest : ∀ u ∈ rest, u ∈ g.pending) :
    ({ g with pending := rest } : EGraph).Backed := by
  have hr : Relabels g { g with pending := rest } := relabels_of_classes_eq hb.shape rfl rfl
  exact hr.backed hb (fun u hu => hb.entry u (.memo hu)) fun u hu =>
    hb.entry u (.pending (hrest u hu))

theorem relabels_learn (hs : g.Shape) (c : EClass) (data : Option Constant) :
    Relabels g (g.learn c data) := by
  refine ⟨rfl, ?_, fun id => ?_⟩
  · have h := shape_modifyClass hs c.id (f := ({ · with data := data })) fun _ => rfl
    exact ⟨h.forest, h.size_classes, h.stored_iff, h.id_eq⟩
  · show ((g.modifyClass c.id ({ · with data := data })).stored? id).map _ = _
    rw [stored_modifyClass]
    split
    · rw [Option.map_map]
      rfl
    · rfl

theorem backed_learn (hb : g.Backed) (c : EClass) (data : Option Constant) :
    (g.learn c data).Backed :=
  (relabels_learn hb.shape c data).backed hb (fun u hu => hb.entry u (.memo hu))
    fun u hu => hb.entry u (.pending hu)

theorem backed_redirect (hb : g.Backed) (hu : g.Witnessed u) :
    (g.redirect u g.pending).Backed := by
  have hr : Relabels g (g.redirect u g.pending) := relabels_of_classes_eq hb.shape rfl rfl
  refine hr.backed hb (fun v hv => ?_) fun v hv => hb.entry v (.pending hv)
  rw [memo_redirect] at hv
  split at hv
  · next hcan =>
    refine hu.of_same ⟨?_, ?_⟩
    · rw [hcan, canonicalize_canonicalize hb.shape]
    · rw [← Option.some.inj hv]
  · exact hb.entry v (.memo hv)

/-! ### Entering -/

theorem nodesAt_enter_of_lt (hs : g.Shape) (hid : id < g.size) :
    (g.enter n).nodesAt id = g.nodesAt id := by
  rw [nodesAt, nodesAt, classAt_enter_of_lt hs hid]
  cases g.classAt? id <;> rfl

theorem nodesAt_enter_size (hs : g.Shape) (hn : ∀ a ∈ n.children, a < g.size) :
    (g.enter n).nodesAt g.size = [n] := by
  rw [nodesAt, classAt_of_stored (shape_enter hs) (stored_enter_size hs hn)]

/-- A node that a class lists now was listed there before, or it is the one that was entered. -/
theorem mem_nodesAt_enter (hs : g.Shape) (hn : ∀ a ∈ n.children, a < g.size) {m : ENode}
    (hm : m ∈ (g.enter n).nodesAt id) : m ∈ g.nodesAt id ∨ (id = g.size ∧ m = n) := by
  rcases lt_or_eq_of_lt_size_enter (lt_of_mem_nodesAt (shape_enter hs) hm) with hlt | rfl
  · rw [nodesAt_enter_of_lt hs hlt] at hm
    exact .inl hm
  · rw [nodesAt_enter_size hs hn, List.mem_singleton] at hm
    exact .inr ⟨rfl, hm⟩

theorem grows_enter (hs : g.Shape) : Grows g (g.enter n) where
  size_le := Nat.le_of_lt size_lt_enter
  find := fun a b hab => by rw [find_enter hs, find_enter hs, hab]
  nodes := fun id m hm => witnessed_of_mem (by
    rwa [nodesAt_enter_of_lt hs (lt_of_mem_nodesAt hs hm)])

theorem witnessed_enter_size (hs : g.Shape) (hn : ∀ a ∈ n.children, a < g.size) :
    (g.enter n).Witnessed (n, g.size) := by
  refine witnessed_of_mem ?_
  rw [nodesAt_enter_size hs hn]
  exact List.mem_singleton_self n

/-- An entry was there before, or it is the one of the node that was entered. -/
theorem entry_enter (hs : g.Shape) (hu : (g.enter n).Entry u) : g.Entry u ∨ u = (n, g.size) := by
  rcases hu with hu | @⟨id, c, hc, hu⟩ | hu
  · rw [memo_enter] at hu
    split at hu
    · next heq => exact .inr (Prod.ext heq (Option.some.inj hu).symm)
    · exact .inl (.memo hu)
  · rcases mem_parents_enter hs hc hu with ⟨d, hd, hu⟩ | ⟨rfl, -⟩
    · exact .inl (.parent hd hu)
    · exact .inr rfl
  · exact .inl (.pending hu)

theorem backed_enter (hb : g.Backed) (hn : ∀ a ∈ n.children, a < g.size) :
    (g.enter n).Backed := by
  have hs := hb.shape
  have hgrows : Grows g (g.enter n) := grows_enter hs
  have hnew := witnessed_enter_size hs hn
  refine hb.of_grows hgrows (shape_enter hs) ?_ ?_ ?_
  · intro id m hm a ha
    refine Nat.lt_of_lt_of_le ?_ hgrows.size_le
    rcases mem_nodesAt_enter hs hn hm with hm | ⟨-, rfl⟩
    · exact hb.child_lt id m hm a ha
    · exact hn a ha
  · intro id hle hlt
    obtain rfl : id = g.size :=
      (lt_or_eq_of_lt_size_enter hlt).resolve_left (Nat.not_lt_of_le hle)
    refine hnew.exists_tree fun a ha => ?_
    obtain ⟨t, ht⟩ := hb.tree a (hn a ha)
    obtain ⟨t', ht', -⟩ := hgrows.covers ht
    exact ⟨t', ht'⟩
  · intro u hu
    rcases entry_enter hs hu with hu | rfl
    · exact .inr ⟨u, hb.entry u hu, same_refl u⟩
    · exact .inl hnew

/-! ### Absorbing -/

theorem mem_nodesAt_absorb (hs : g.Shape) (hxy : g.Apart x y) :
    n ∈ (g.absorb x.id y data).nodesAt id ↔
      if g.find id = x.id ∨ g.find id = y.id then n ∈ x.nodes ∨ n ∈ y.nodes
      else n ∈ g.nodesAt id := by
  rw [mem_nodesAt, classAt_absorb hs hxy]
  split
  · simp
  · exact mem_nodesAt.symm

/-- A join drops no nodes. -/
theorem mem_nodesAt_absorb_of_mem (hs : g.Shape) (hxy : g.Apart x y) (hn : n ∈ g.nodesAt id) :
    n ∈ (g.absorb x.id y data).nodesAt id := by
  refine (mem_nodesAt_absorb hs hxy).2 ?_
  split
  · next hid =>
    obtain ⟨c, hc, hmem⟩ := mem_nodesAt.1 hn
    rcases hid with hid | hid
    · obtain rfl := classAt_of_find_eq hxy.left hid hc
      exact .inl hmem
    · obtain rfl := classAt_of_find_eq hxy.right hid hc
      exact .inr hmem
  · exact hn

theorem grows_absorb (hs : g.Shape) (hxy : g.Apart x y) : Grows g (g.absorb x.id y data) where
  size_le := Nat.le_of_eq size_absorb.symm
  find := fun _ _ hab => find_absorb_of_eq hs hxy hab
  nodes := fun _ _ hn => witnessed_of_mem (mem_nodesAt_absorb_of_mem hs hxy hn)

/-- A join makes no entries. -/
theorem entry_absorb (hs : g.Shape) (hxy : g.Apart x y) (hu : (g.absorb x.id y data).Entry u) :
    g.Entry u := by
  rcases hu with hu | @⟨id, c, hc, hu⟩ | hu
  · exact .memo hu
  · obtain ⟨j, d, hd, hu⟩ := mem_parents_absorb hs hxy hc hu
    exact .parent hd hu
  · rcases mem_pending_absorb.1 hu with hu | hu
    · exact .parent hxy.right hu
    · exact .pending hu

theorem backed_absorb (hb : g.Backed) (hxy : g.Apart x y) :
    (g.absorb x.id y data).Backed := by
  have hs := hb.shape
  refine hb.of_grows (grows_absorb hs hxy) (shape_absorb hs hxy) ?_ ?_
    fun u hu => .inr ⟨u, hb.entry u (entry_absorb hs hxy hu), same_refl u⟩
  · intro id n hn a ha
    rw [size_absorb]
    rw [mem_nodesAt_absorb hs hxy] at hn
    split at hn
    · rcases hn with hn | hn
      · exact hb.child_lt x.id n ((mem_nodesAt_of_stored hs hxy.left).2 hn) a ha
      · exact hb.child_lt y.id n ((mem_nodesAt_of_stored hs hxy.right).2 hn) a ha
    · exact hb.child_lt id n hn a ha
  · intro id hle hlt
    rw [size_absorb] at hlt
    exact absurd hlt (Nat.not_lt_of_le hle)

/-! ### Pruning and tidying -/

theorem mem_nodesAt_prune :
    n ∈ (g.modifyClass (g.find id) EClass.prune).nodesAt a ↔
      n ∈ g.nodesAt a ∧ (g.find a = g.find id → n.isLeaf = true) := by
  have hfind : (g.modifyClass (g.find id) EClass.prune).find a = g.find a := rfl
  rw [mem_nodesAt, mem_nodesAt, classAt?, classAt?, hfind, stored_modifyClass]
  by_cases ha : g.find id = g.find a
  · rw [if_pos ha]
    cases g.stored? (g.find a) with
    | none => simp
    | some c => simp [EClass.prune, Array.mem_filter, ha]
  · rw [if_neg ha]
    simp [Ne.symm ha]

theorem grows_prune (hleaf : ∃ n ∈ g.nodesAt id, n.isLeaf = true) :
    Grows g (g.modifyClass (g.find id) EClass.prune) where
  size_le := Nat.le_refl _
  find := fun _ _ h => h
  nodes := by
    intro a n hn
    by_cases hkeep : g.find a = g.find id → n.isLeaf = true
    · exact witnessed_of_mem (mem_nodesAt_prune.2 ⟨hn, hkeep⟩)
    · obtain ⟨m, hm, hmleaf⟩ := hleaf
      have ha : g.find id = g.find a := (Classical.not_imp.1 hkeep).1.symm
      rw [nodesAt_of_find_eq ha] at hm
      exact ⟨m, mem_nodesAt_prune.2 ⟨hm, fun _ => hmleaf⟩, .inl hmleaf⟩

theorem entry_prune (hu : (g.modifyClass (g.find id) EClass.prune).Entry u) : g.Entry u := by
  rcases hu with hu | ⟨hc, hu⟩ | hu
  · exact .memo hu
  · rw [stored_modifyClass] at hc
    split at hc
    · obtain ⟨d, hd, rfl⟩ := Option.map_eq_some_iff.1 hc
      exact .parent hd hu
    · exact .parent hc hu
  · exact .pending hu

theorem backed_prune (hb : g.Backed) (hleaf : ∃ n ∈ g.nodesAt id, n.isLeaf = true) :
    (g.modifyClass (g.find id) EClass.prune).Backed := by
  have hs := hb.shape
  refine hb.of_grows (grows_prune hleaf) (shape_modifyClass hs _ fun _ => rfl) ?_ ?_
    fun u hu => .inr ⟨u, hb.entry u (entry_prune hu), same_refl u⟩
  · intro a n hn
    exact hb.child_lt a n (mem_nodesAt_prune.1 hn).1
  · intro a hle hlt
    exact absurd hlt (Nat.not_lt_of_le hle)

theorem mem_nodesAt_tidy : n ∈ g.tidy.nodesAt id ↔ ∃ m ∈ g.nodesAt id, g.canonicalize m = n := by
  have hfind : g.tidy.find id = g.find id := rfl
  rw [mem_nodesAt, classAt?, hfind, stored_tidy]
  constructor
  · rintro ⟨c', hc', hn⟩
    obtain ⟨c, hc, rfl⟩ := Option.map_eq_some_iff.1 hc'
    obtain ⟨m, hm, rfl⟩ := Array.mem_map.1 (mem_distinctNodes.1 hn)
    exact ⟨m, mem_nodesAt.2 ⟨c, hc, hm⟩, rfl⟩
  · rintro ⟨m, hm, rfl⟩
    obtain ⟨c, hc, hmem⟩ := mem_nodesAt.1 hm
    have hstored : g.stored? (g.find id) = some c := hc
    exact ⟨g.tidyClass c, by rw [hstored]; rfl,
      mem_distinctNodes.2 (Array.mem_map.2 ⟨m, hmem, rfl⟩)⟩

theorem grows_tidy (hs : g.Shape) : Grows g g.tidy where
  size_le := Nat.le_refl _
  find := fun _ _ h => h
  nodes := fun _ n hn =>
    ⟨_, mem_nodesAt_tidy.2 ⟨n, hn, rfl⟩, .inr (canonicalize_canonicalize hs n)⟩

theorem shape_tidy (hs : g.Shape) : g.tidy.Shape where
  forest := hs.forest
  size_classes := Array.size_map.trans hs.size_classes
  stored_iff := by
    intro id
    rw [stored_tidy]
    refine Iff.trans ?_ (hs.stored_iff id)
    cases g.stored? id <;> simp
  id_eq := by
    intro id c' hc'
    rw [stored_tidy] at hc'
    obtain ⟨c, hc, rfl⟩ := Option.map_eq_some_iff.1 hc'
    exact hs.id_eq id c hc

/-- An entry of the tidy graph is an entry of the graph, as it is called now. -/
theorem exists_of_entry_tidy (hs : g.Shape) (hu : g.tidy.Entry u) :
    ∃ v, g.Entry v ∧ g.Same u v := by
  rcases hu with hu | @⟨id, c', hc', hu⟩ | hu
  · exact ⟨u, .memo hu, same_refl u⟩
  · rw [stored_tidy] at hc'
    obtain ⟨c, hc, rfl⟩ := Option.map_eq_some_iff.1 hc'
    obtain ⟨v, hv, rfl⟩ := Array.mem_map.1 (mem_of_mem_distinctUsages hu)
    exact ⟨v, .parent hc hv, canonicalize_canonicalize hs v.1, find_find hs v.2⟩
  · exact ⟨u, .pending hu, same_refl u⟩

theorem backed_tidy (hb : g.Backed) : g.tidy.Backed := by
  have hs := hb.shape
  refine hb.of_grows (grows_tidy hs) (shape_tidy hs) ?_ ?_ fun u hu => ?_
  · intro id n hn a ha
    obtain ⟨m, hm, rfl⟩ := mem_nodesAt_tidy.1 hn
    obtain ⟨b, hb', rfl⟩ := mem_children_canonicalize.1 ha
    exact find_lt hs (hb.child_lt id m hm b hb')
  · intro id hle hlt
    exact absurd hlt (Nat.not_lt_of_le hle)
  · obtain ⟨v, hv, huv⟩ := exists_of_entry_tidy hs hu
    exact .inr ⟨v, hb.entry v hv, huv⟩

/-! ## Calls -/

/-- A step leads to a backed graph that has grown, also where it fails; and where it succeeds, to
what `Q` says. -/
def Leads {α : Type} (Q : α → EGraph → Prop) (g : EGraph) :
    EStateM.Result Conflict EGraph α → Prop
  | .ok a g' => g'.Backed ∧ Grows g g' ∧ Q a g'
  | .error _ g' => g'.Backed ∧ Grows g g'

theorem Leads.from {α : Type} {Q : α → EGraph → Prop} {r : EStateM.Result Conflict EGraph α}
    (h : Leads Q g' r) (hgrows : Grows g g') : Leads Q g r := by
  cases r with
  | ok a g'' => exact ⟨h.1, hgrows.trans h.2.1, h.2.2⟩
  | error e g'' => exact ⟨h.1, hgrows.trans h.2⟩

theorem Leads.bind {α β : Type} {Q : α → EGraph → Prop} {R : β → EGraph → Prop} {s : Update α}
    {f : α → Update β} (hs : Leads Q g (s g))
    (hf : ∀ a g', g'.Backed → Grows g g' → Q a g' → Leads R g' (f a g')) :
    Leads R g ((s >>= f) g) := by
  cases hrun : s g with
  | ok a g' =>
    rw [hrun] at hs
    rw [bind_ok hrun]
    exact (hf a g' hs.1 hs.2.1 hs.2.2).from hs.2.1
  | error e g' =>
    rw [hrun] at hs
    rw [bind_error hrun]
    exact hs

theorem leads_merge (hb : g.Backed) (ha : a < g.size) (hbsize : b < g.size) :
    Leads (fun _ g' => g'.find a = g'.find b) g (merge a b g) := by
  rcases merge_cases hb.shape ha hbsize with ⟨hab, hrun⟩ | ⟨x, y, hxy, -, hids, hrun⟩
  · rw [hrun]
    exact ⟨hb, .refl, hab⟩
  · rw [hrun]
    rcases mergeInto_cases x y g with ⟨k, -, hinto⟩ | ⟨l, r, -, -, -, hinto⟩
    · rw [hinto]
      exact ⟨backed_absorb hb hxy, grows_absorb hb.shape hxy, hids.find_absorb_eq hb.shape hxy⟩
    · rw [hinto]
      exact ⟨hb, .refl⟩

/-- What the memo finds is a class that witnesses the node. -/
theorem Backed.witnessed_find (hb : g.Backed) (h : g.memo[n]? = some id) :
    g.Witnessed (n, g.find id) :=
  (hb.entry (n, id) (.memo h)).of_same ⟨rfl, find_find hb.shape id⟩

theorem leads_intern (hb : g.Backed) (hn : ∀ a ∈ n.children, a < g.size) :
    Leads (fun id g' => g'.Witnessed (n, id)) g (intern n g) := by
  rw [intern_eq]
  cases hmemo : g.memo[n]? with
  | some id => exact ⟨hb, .refl, hb.witnessed_find hmemo⟩
  | none => exact ⟨backed_enter hb hn, grows_enter hb.shape, witnessed_enter_size hb.shape hn⟩

theorem leads_settle (hb : g.Backed) (hid : id < g.size) :
    Leads (fun _ _ => True) g (settle id g) := by
  rw [settle_eq]
  cases g.constantAt? id with
  | none => exact ⟨hb, .refl, trivial⟩
  | some c =>
    refine (leads_intern hb fun a ha => by cases ha).bind fun leaf g₁ hb₁ hgrows₁ hleaf => ?_
    have hid₁ := Nat.lt_of_lt_of_le hid hgrows₁.size_le
    refine (leads_merge hb₁ hid₁ (hleaf.lt hb₁.shape)).bind fun _ g₂ hb₂ hgrows₂ hfind => ?_
    -- the class has the leaf now, so that it can do without its other nodes
    obtain ⟨n, hn, hnleaf⟩ := (hgrows₂.witnessed hleaf).exists_leaf rfl
    have hex : ∃ n ∈ g₂.nodesAt id, n.isLeaf = true :=
      ⟨n, by rwa [nodesAt_of_find_eq hfind], hnleaf⟩
    exact ⟨backed_prune hb₂ hex, grows_prune hex, trivial⟩

theorem leads_add (hb : g.Backed) (hn : ∀ a ∈ n.children, a < g.size) :
    Leads (fun id g' => g'.Witnessed (n, id)) g (add n g) := by
  have hs := hb.shape
  have hcan : g.canonicalize (g.canonicalize n) = g.canonicalize n := canonicalize_canonicalize hs n
  rw [add_eq]
  cases hmemo : g.memo[g.canonicalize n]? with
  | some id =>
    exact ⟨hb, .refl, (hb.witnessed_find hmemo).of_same ⟨hcan.symm, rfl⟩⟩
  | none =>
    have hchild : ∀ a ∈ (g.canonicalize n).children, a < g.size := by
      intro a ha
      obtain ⟨b, hb', rfl⟩ := mem_children_canonicalize.1 ha
      exact find_lt hs (hn b hb')
    have hgrows : Grows g (g.enter (g.canonicalize n)) := grows_enter hs
    have hb₁ := backed_enter hb hchild
    have hlt : g.size < (g.enter (g.canonicalize n)).size := size_lt_enter
    refine Leads.from (Leads.bind (leads_settle hb₁ hlt) fun _ g₂ hb₂ hgrows₂ _ => ?_) hgrows
    refine ⟨hb₂, .refl, ?_⟩
    have hnew := hgrows₂.witnessed (witnessed_enter_size hs hchild)
    exact hnew.of_same
      ⟨canonicalize_eq_of_find (hgrows.trans hgrows₂).find hcan.symm, find_find hb₂.shape g.size⟩

theorem leads_union (hb : g.Backed) (ha : a < g.size) (hbsize : b < g.size) :
    Leads (fun _ _ => True) g (union a b g) := by
  refine (leads_merge hb ha hbsize).bind fun joined g' hb' hgrows' _ => ?_
  cases joined with
  | false => exact ⟨hb', .refl, trivial⟩
  | true =>
    refine (leads_settle hb' (Nat.lt_of_lt_of_le ha hgrows'.size_le)).bind ?_
    exact fun _ g'' hb'' _ _ => ⟨hb'', .refl, trivial⟩

theorem leads_repair (hb : g.Backed) (hu : g.Witnessed u) :
    Leads (fun _ _ => True) g (repair u g) := by
  rw [show repair u g = repair u { g with pending := g.pending } from rfl, repair_eq]
  have hr : Relabels g (g.redirect u g.pending) := relabels_of_classes_eq hb.shape rfl rfl
  have hb' := backed_redirect hb hu
  cases hmemo : g.memo[g.canonicalize u.1]? with
  | none => exact ⟨hb', hr.grows, trivial⟩
  | some id =>
    have hid := (hb.entry (g.canonicalize u.1, id) (.memo hmemo)).lt hb.shape
    have hlt := hu.lt hb.shape
    exact Leads.from (leads_union hb' hid hlt) hr.grows

theorem leads_refold (hb : g.Backed) (u : Usage) : Leads (fun _ _ => True) g (refold u g) := by
  show Leads _ g (refold u { g with foldPending := g.foldPending })
  rcases refold_cases hb.shape u g.foldPending with
    ⟨-, hrun⟩ | ⟨c, l, r, -, -, -, -, hrun⟩ | ⟨c, k, hstored, -, -, -, hrun⟩
  · rw [hrun]
    exact ⟨hb, .refl, trivial⟩
  · rw [hrun]
    exact ⟨hb, .refl⟩
  · rw [hrun]
    exact (leads_settle (backed_learn hb c _) (lt_of_stored hb.shape hstored)).from
      (relabels_learn hb.shape c _).grows

theorem leads_drain (fuel : Nat) (stage : Stage) (unions : Nat) {g : EGraph} (hb : g.Backed) :
    Leads (fun _ _ => True) g (drain fuel stage unions g) := by
  induction fuel generalizing stage unions g with
  | zero => exact ⟨hb, .refl, trivial⟩
  | succ fuel ih =>
    rw [drain_succ]
    rcases takeUsage_cases stage g with
      ⟨htake, -⟩ | ⟨u, rest, hp, htake⟩ | ⟨u, rest, -, htake⟩
    · rw [htake]
      exact ⟨hb, .refl, trivial⟩
    · rw [htake]
      have hr : Relabels g { g with pending := rest } := relabels_of_classes_eq hb.shape rfl rfl
      have hb₁ : ({ g with pending := rest } : EGraph).Backed :=
        backed_pop hb fun u hu => by rw [hp]; exact List.mem_cons_of_mem _ hu
      have hu := hb.entry u (.pending (by rw [hp]; exact List.mem_cons_self))
      refine Leads.from (Leads.bind (leads_repair hb₁ (hr.grows.witnessed hu)) ?_) hr.grows
      exact fun joined g' hb' _ _ => ih _ _ hb'
    · rw [htake]
      have hr : Relabels g { g with foldPending := rest } :=
        relabels_of_classes_eq hb.shape rfl rfl
      have hb₁ : ({ g with foldPending := rest } : EGraph).Backed :=
        hr.backed hb (fun u hu => hb.entry u (.memo hu)) fun u hu => hb.entry u (.pending hu)
      refine Leads.from (Leads.bind (leads_refold hb₁ u) ?_) hr.grows
      exact fun _ g' hb' _ _ => ih _ _ hb'

theorem leads_rebuild (hb : g.Backed) : Leads (fun _ _ => True) g (rebuild g) := by
  rw [rebuild_eq]
  refine (leads_drain g.work .congruence 0 hb).bind fun unions g' hb' _ _ => ?_
  exact ⟨backed_tidy hb', grows_tidy hb'.shape, trivial⟩

/-! ## Reachable graphs -/

theorem Leads.left {α : Type} {Q : α → EGraph → Prop} {r : EStateM.Result Conflict EGraph α}
    (h : Leads Q g r) : (left r).Backed := by
  cases r with
  | ok a g' => exact h.1
  | error e g' => exact h.1

/-- The graphs that calls make of the empty one.  A call that ends with a conflict leaves a graph
behind that others may go on with. -/
inductive Reached (analysis : Analysis) : EGraph → Prop where
  | empty : Reached analysis (empty analysis)
  | add {g : EGraph} (h : Reached analysis g) (n : ENode) (hn : ∀ a ∈ n.children, a < g.size) :
    Reached analysis (left (add n g))
  | union {g : EGraph} (h : Reached analysis g) (a b : ClassId) (ha : a < g.size)
    (hb : b < g.size) : Reached analysis (left (union a b g))
  | rebuild {g : EGraph} (h : Reached analysis g) : Reached analysis (left (rebuild g))

/-- **Reachable graphs** are backed by the trees of their classes. -/
theorem Reached.backed {analysis : Analysis} (h : Reached analysis g) : g.Backed := by
  induction h with
  | empty => exact backed_empty analysis
  | add _ n hn ih => exact (leads_add ih hn).left
  | union _ a b ha hb ih => exact (leads_union ih ha hb).left
  | rebuild _ ih => exact (leads_rebuild ih).left

end EqSat.EGraph
