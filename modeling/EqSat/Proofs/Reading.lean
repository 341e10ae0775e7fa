import EqSat.Proofs.Rounds
import EqSat.Proofs.Saturated

/-!
# What a graph says about nodes

A rebuilt graph gives values to nodes over its classes: the class in which it finds the node.  Of
what it finds, a part may be read, and nodes that are not found may be read where they evaluate to
the constant of a class.  A constant that is not read in any class stands for itself.  That is a
meaning of nodes, with the classes of the graph as the values.

    Reads.holds_iff      what a node over classes means is where it is read
    Reads.no_clash       different constants have different values
    build_of_present     what is found can be built without a change
    present_of_build     and only that
-/

namespace EqSat

open EGraph

/-- A class, or a constant that has none. -/
abbrev Place := ClassId ⊕ Constant

theorem Node.map_injective {α β : Type} {f : α → β} (hf : f.Injective) {m n : Node α}
    (h : m.map f = n.map f) : m = n := by
  cases m <;> cases n <;> simp_all [Node.map, hf.eq_iff]

variable {D : Type} {J : Meaning D} {g g' : EGraph} {n : ENode} {id c : ClassId} {k l : Constant}
  {p : Pattern} {s : Subst} {R : ENode → ClassId → Prop}

/-! ## Rebuilt graphs -/

/-- A clean graph of a run is rebuilt. -/
theorem Steady.inOrder (h : Steady .constantFolding g) (hclean : g.clean = true) : InOrder g := by
  obtain ⟨hp, hf, htidy⟩ := h.1.orderly.rested hclean
  obtain ⟨-, o, hv⟩ := h
  have ht := tidy_tidy hv.shape hp hf
  rw [htidy] at ht
  exact ⟨ht, o, hv⟩

namespace InOrder

theorem listing (h : InOrder g) : g.Listing := by
  obtain ⟨ht, o, hv⟩ := h
  refine ⟨hv.shape, fun id n hn a ha => ⟨hv.grounded.child_lt id n hn a ha, ?_⟩⟩
  obtain ⟨c, hc, hmem⟩ := mem_nodesAt.1 hn
  rw [← ht.canonical _ c hc n hmem] at ha
  obtain ⟨b, -, rfl⟩ := mem_children_canonicalize.1 ha
  exact find_find hv.shape b

theorem analysis_eq (h : InOrder g) : g.analysis = .constantFolding := by
  obtain ⟨-, o, hv⟩ := h
  exact hv.sound.analysis

theorem current_of_lookup (h : InOrder g) (hc : g.lookup n = some c) : g.Current c := by
  obtain ⟨-, o, hv⟩ := h
  exact EGraph.current_of_lookup hv.shape hv.founded hc

/-- What the node of a class evaluates to is known of the class. -/
theorem constantAt_of_foldNode (h : InOrder g) (hc : g.lookup n = some c)
    (hk : g.foldNode n = some k) : g.constantAt? c = some k := by
  obtain ⟨ht, o, hv⟩ := h
  obtain ⟨i, hi, hcan, hfind⟩ := stands_of_lookup hv.shape hv.founded hc
  have hfold := hk
  rw [foldNode_of_canonicalize_eq hv.shape hcan] at hfold
  rcases hv.complete.folded i hi k hfold with hconst | ⟨u, hu, -⟩
  · rwa [constantAt_of_find_eq hfind]
  · rw [ht.foldPending] at hu
    cases hu

/-- A class is known to be the constants that are found in it. -/
theorem constantAt_of_lookup (h : InOrder g) (hc : g.lookup (.leaf (.const k)) = some c) :
    g.constantAt? c = some k := by
  refine h.constantAt_of_foldNode hc ?_
  rw [foldNode, h.analysis_eq]
  rfl

/-- A constant is found where it is known. -/
theorem lookup_of_constantAt (h : InOrder g) (hk : g.constantAt? c = some k) :
    g.lookup (.leaf (.const k)) = some (g.find c) := by
  obtain ⟨-, o, hv⟩ := h
  obtain ⟨e, he, -⟩ := exists_classAt hv.shape (lt_of_constantAt hv.shape hk)
  have hdata : e.data = some k := by rwa [constantAt?, he] at hk
  obtain ⟨⟨j, hj, hjc⟩, -, -⟩ := hv.settled _ e k not_false he hdata
  have hj' : g.memo[g.canonicalize (.leaf (.const k))]? = some j := hj
  rw [lookup, hj', Option.map_some, hjc]

/-- A node that the graph has is listed, unless folding has dropped it. -/
theorem lists_of_lookup (h : InOrder g) (hn : ∀ a ∈ n.children, g.Current a)
    (hc : g.lookup n = some c) (hk : g.constantAt? c = none ∨ n.isLeaf = true) : g.Lists n c := by
  obtain ⟨ht, o, hv⟩ := h
  obtain ⟨i, hi, hcan, hfind⟩ := stands_of_lookup hv.shape hv.founded hc
  obtain ⟨e, he, hlisted⟩ := hv.complete.listed i hi
  have hic : g.classAt? c = some e := by
    have hfind' : g.find c = g.find i := hfind
    rwa [classAt?, hfind']
  have hleaf : (o.node i).isLeaf = n.isLeaf := (isLeaf_of_canonicalize_eq hcan).symm
  rcases hlisted with ⟨hdata, hnot⟩ | ⟨m, hm, hcan'⟩
  · rcases hk with hk | hk
    · rw [constantAt?, hic, Option.bind_some] at hk
      exact absurd hk hdata
    · have hnot' : (o.node i).isLeaf = false := hnot
      rw [hleaf, hk] at hnot'
      cases hnot'
  · have hself : g.canonicalize n = n := Node.map_eq_self fun a ha => (hn a ha).2
    have hmn : m = n := by
      rw [← ht.canonical _ e he m hm, hcan', ← hcan, hself]
    rw [← hmn]
    exact mem_nodesAt.2 ⟨e, hic, hm⟩

end InOrder

/-! ## The meaning -/

/-- A way to give classes to nodes over classes, which agrees with what is known of the classes and
with what nodes evaluate to. -/
structure EGraph.Reads (g : EGraph) (R : ENode → ClassId → Prop) : Prop where
  inOrder : InOrder g
  known : ∀ {k c}, R (.leaf (.const k)) c → g.constantAt? c = some k
  unique : ∀ {n c c'}, R n c → R n c' → c = c'
  fold : ∀ {n c k}, R n c → g.foldNode n = some k → R (.leaf (.const k)) c

open Classical in
/-- The class in which the constant is read, if it is. -/
noncomputable def placeOf (R : ENode → ClassId → Prop) (k : Constant) : Place :=
  if h : ∃ c, R (.leaf (.const k)) c then .inl h.choose else .inr k

theorem eq_of_placeOf_eq_inr (h : placeOf R k = .inr l) : k = l := by
  unfold placeOf at h
  split at h
  · cases h
  · exact Sum.inr_injective h

namespace EGraph.Reads

theorem placeOf_eq_inl (h : g.Reads R) : placeOf R k = .inl c ↔ R (.leaf (.const k)) c := by
  unfold placeOf
  split
  · next hk =>
    rw [Sum.inl.injEq]
    exact ⟨fun hc => hc ▸ hk.choose_spec, fun hc => h.unique hk.choose_spec hc⟩
  · next hk => exact iff_of_false Sum.inr_ne_inl fun hc => hk ⟨c, hc⟩

/-- Nodes over classes of known constants evaluate like nodes over the constants. -/
theorem foldNode_of_map_placeOf (h : g.Reads R) {m : Node Constant}
    (hmn : n.map .inl = m.map (placeOf R)) : g.foldNode n = (m.map some).fold? := by
  obtain ⟨hout, hplaces⟩ := Node.map_eq_map_iff.1 hmn
  rw [foldNode, h.inOrder.analysis_eq]
  refine congrArg Node.fold? (Node.map_eq_map_iff.2 ⟨hout, fun c hc => ?_⟩)
  exact h.known (h.placeOf_eq_inl.1 (hplaces c hc).symm)

/-- **What is read** of nodes, as their meaning. -/
noncomputable def meaning (h : g.Reads R) : Meaning Place where
  analysis := .constantFolding
  const := placeOf R
  Holds n d := (∃ m c, n = m.map .inl ∧ R m c ∧ d = .inl c) ∨
    ∃ k, n = .leaf (.const k) ∧ d = placeOf R k
  holds_const := fun k => .inr ⟨k, rfl, rfl⟩
  unique := by
    have hconst : ∀ {m c k}, R m c → (Node.leaf (.const k) : Node Place) = m.map .inl →
        placeOf R k = .inl c := fun {m c k} hm hk => h.placeOf_eq_inl.2 (h.fold hm
      (h.foldNode_of_map_placeOf (m := .leaf (.const k)) hk.symm))
    rintro n d e (⟨m, c, rfl, hm, rfl⟩ | ⟨k, rfl, rfl⟩) (⟨m', c', hm', hr, rfl⟩ | ⟨k', hk', rfl⟩)
    · obtain rfl := Node.map_injective Sum.inl_injective hm'
      rw [h.unique hm hr]
    · exact (hconst hm hk'.symm).symm
    · exact hconst hr hm'
    · cases hk'
      rfl
  fold := by
    rintro - n k d hk (⟨m, c, hm, hr, rfl⟩ | ⟨l, hl, rfl⟩)
    · exact (h.placeOf_eq_inl.2 (h.fold hr ((h.foldNode_of_map_placeOf hm.symm).trans hk))).symm
    · cases n <;> simp only [Node.map, Node.leaf.injEq, reduceCtorEq] at hl
      subst hl
      cases hk
      rfl

variable (h : g.Reads R)
include h

/-- What holds of a class is read. -/
theorem exists_of_holds {n : Node Place} (hn : h.meaning.Holds n (.inl c)) :
    ∃ m, n = m.map .inl ∧ R m c := by
  rcases hn with ⟨m, c', rfl, hm, hc⟩ | ⟨k, rfl, hk⟩
  · cases hc
    exact ⟨m, rfl, hm⟩
  · exact ⟨.leaf (.const k), rfl, h.placeOf_eq_inl.1 hk.symm⟩

theorem holds_of_reads {m : ENode} (hm : R m c) : h.meaning.Holds (m.map .inl) (.inl c) :=
  .inl ⟨m, c, rfl, hm, rfl⟩

theorem holds_iff {m : ENode} : h.meaning.Holds (m.map .inl) (.inl c) ↔ R m c := by
  refine ⟨fun hm => ?_, h.holds_of_reads⟩
  obtain ⟨m', hmap, hm'⟩ := h.exists_of_holds hm
  rwa [Node.map_injective Sum.inl_injective hmap]

/-- A pattern means a class where it is read. -/
theorem means_iff {σ : String → ClassId} :
    p.Means h.meaning (fun x => .inl (σ x)) (.inl c) ↔ p.Over R σ c := by
  rw [Pattern.means_iff_over]
  refine ⟨fun hp => ?_, Pattern.Over.map fun n c => h.holds_of_reads⟩
  induction p generalizing c with
  | hole x => exact Sum.inl_injective hp
  | leaf l => exact h.holds_iff.1 hp
  | unary op p ih =>
    obtain ⟨a, ha, hd⟩ := hp
    obtain ⟨m, hm, hr⟩ := h.exists_of_holds hd
    cases m <;> cases hm
    exact ⟨_, ih ha, hr⟩
  | binary op p q ihp ihq =>
    obtain ⟨a, b, ha, hb, hd⟩ := hp
    obtain ⟨m, hm, hr⟩ := h.exists_of_holds hd
    cases m <;> cases hm
    exact ⟨_, _, ihp ha, ihq hb, hr⟩

/-- The parts of a class are classes. -/
theorem inherits : h.meaning.Inherits fun d => ∃ c, d = .inl c := by
  rintro n d hn ⟨c, rfl⟩
  obtain ⟨m, rfl, -⟩ := h.exists_of_holds hn
  exact Node.forall_mem_children_map.2 fun a _ => ⟨a, rfl⟩

/-- Different constants have different values. -/
theorem no_clash (e : Conflict) : ¬Clash h.meaning e := by
  rintro ⟨hne, heq⟩
  have heq' : placeOf R e.left = placeOf R e.right := heq
  cases hright : placeOf R e.right with
  | inl c =>
    have hk := h.known (h.placeOf_eq_inl.1 hright)
    rw [h.known (h.placeOf_eq_inl.1 (heq'.trans hright))] at hk
    exact hne (Option.some.inj hk)
  | inr k =>
    exact hne ((eq_of_placeOf_eq_inr (heq'.trans hright)).trans (eq_of_placeOf_eq_inr hright).symm)

end EGraph.Reads

/-! ## Lookups -/

theorem InOrder.reads (h : InOrder g) : g.Reads fun n c => g.lookup n = some c where
  inOrder := h
  known := h.constantAt_of_lookup
  unique := fun hc hc' => Option.some.inj (hc.symm.trans hc')
  fold := by
    intro n c k hc hk
    rw [h.lookup_of_constantAt (h.constantAt_of_foldNode hc hk), (h.current_of_lookup hc).2]

/-- What a rebuilt graph finds, as a meaning. -/
noncomputable def InOrder.reading (h : InOrder g) : Meaning Place := h.reads.meaning

/-! ## Building what is there -/

/-- The nodes of the pattern are found in the graph, the last of them in the class `id`. -/
def Pattern.Present (g : EGraph) (p : Pattern) (s : Subst) (id : ClassId) : Prop :=
  p.Over (fun n c => g.lookup n = some c) (fun x => g.find (s.get x)) id

/-- Where no repairs are due, what stands is found. -/
theorem Pattern.Entered.present {o : Origin D} (h : p.Entered g o s id) (hv : Valid J g o)
    (hp : g.pending = []) : p.Present g s (g.find id) := by
  have hmap := Over.map (f := g.find) (K := fun n c => g.lookup n = some c)
    (fun n c (hn : g.Stands o (n, c)) => lookup_of_stands hv.known hp
      (hn.of_same ⟨canonicalize_canonicalize hv.shape n, rfl⟩)) h
  rw [find_find hv.shape] at hmap
  exact (over_congr fun x _ => find_find hv.shape (s.get x)).1 hmap

/-- **What is found** can be built without a change. -/
theorem build_of_present (h : p.Present g s id) : p.build s g = .ok id g := by
  induction p generalizing id with
  | hole x =>
    obtain rfl : id = g.find (s.get x) := h
    rfl
  | leaf l => exact add_of_lookup h
  | unary op p ih =>
    obtain ⟨a, ha, hd⟩ := h
    show (p.build s >>= fun a => add (.unary op a)) g = _
    rw [bind_ok (ih ha), add_of_lookup hd]
  | binary op p q ihp ihq =>
    obtain ⟨a, b, ha, hb, hd⟩ := h
    show (p.build s >>= fun a => q.build s >>= fun b => add (.binary op a b)) g = _
    rw [bind_ok (ihp ha), bind_ok (ihq hb), add_of_lookup hd]

end EqSat
