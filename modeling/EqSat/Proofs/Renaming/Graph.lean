import EqSat.Proofs.EGraph.Repair
import EqSat.Proofs.Symbols

/-!
# Renamed graphs

Renaming the variable symbols of a graph changes the names on the leaves and nothing else: all ids,
constants and counts are the same.  Where no two symbols are given one name, nodes that differ
still do.  So the memo finds a renamed node where it found the node, and duplicates are left out
where they were.  The memo itself is ordered by names.  Only what it finds can be compared.

    Renamed.enter, Renamed.absorb, Renamed.tidy      renamed graphs are changed alike
-/

namespace EqSat

variable {ρ : String → String} {α β : Type}

/-! ## Renaming -/

def Leaf.rename (ρ : String → String) : Leaf → Leaf
  | const c => const c
  | var x => var (ρ x)

def Node.rename (ρ : String → String) : Node α → Node α
  | leaf l => leaf (l.rename ρ)
  | n => n

/-- The same usage of a renamed node. -/
def Usage.rename (ρ : String → String) (u : Usage) : Usage := (u.1.rename ρ, u.2)

def EClass.rename (ρ : String → String) (c : EClass) : EClass :=
  { c with nodes := c.nodes.map (Node.rename ρ), parents := c.parents.map (Usage.rename ρ) }

namespace Node

@[simp]
theorem children_rename (n : Node α) : (n.rename ρ).children = n.children := by cases n <;> rfl

@[simp]
theorem isLeaf_rename (n : Node α) : (n.rename ρ).isLeaf = n.isLeaf := by cases n <;> rfl

theorem map_rename (f : α → β) (n : Node α) : (n.rename ρ).map f = (n.map f).rename ρ := by
  cases n <;> rfl

theorem fold_rename (n : Node (Option Constant)) : (n.rename ρ).fold? = n.fold? := by
  cases n with
  | leaf l => cases l <;> rfl
  | unary op a => rfl
  | binary op a b => rfl

theorem mapM_rename (f : α → Option β) (n : Node α) :
    (n.rename ρ).mapM f = (n.mapM f).map (rename ρ) := by
  cases n with
  | leaf l => rfl
  | unary op a =>
    show (f a).bind _ = ((f a).bind _).map _
    cases f a <;> rfl
  | binary op a b =>
    show (f a).bind (fun _ => (f b).bind _) = ((f a).bind fun _ => (f b).bind _).map _
    cases f a <;> cases f b <;> rfl

theorem total_rename [Add α] [OfNat α 0] (n : Node α) : (n.rename ρ).total = n.total := by
  cases n <;> rfl

/-- Nodes that differ still do. -/
theorem rename_injective (hρ : ρ.Injective) : (rename (α := α) ρ).Injective := by
  intro m n h
  cases m with
  | leaf l =>
    cases n with
    | leaf l' => cases l <;> cases l' <;> simp_all [rename, Leaf.rename, hρ.eq_iff]
    | unary op a => cases h
    | binary op a b => cases h
  | unary op a => cases n <;> first | exact h | cases h
  | binary op a b => cases n <;> first | exact h | cases h

end Node

/-- The term with its variable symbols renamed. -/
def Term.rename (ρ : String → String) (t : Term) : Term where
  nodes := t.nodes.map (Node.rename ρ)
  ordered := by
    intro i hi c hc
    rw [Array.getElem_map, Node.children_rename] at hc
    exact t.ordered i (by simpa using hi) c hc

/-! ## Without duplicates -/

/-- The same nodes have been kept, under their new names. -/
def Kept.Renamed (ρ : String → String) (kept kept' : Kept) : Prop :=
  kept'.2 = kept.2.map (Node.rename ρ) ∧ ∀ n, kept'.1.contains (n.rename ρ) = kept.1.contains n

theorem Kept.Renamed.keepNew (hρ : ρ.Injective) {kept kept' : Kept} (h : kept.Renamed ρ kept')
    (n : ENode) : (keepNew kept n).Renamed ρ (keepNew kept' (n.rename ρ)) := by
  obtain ⟨hnodes, hcontains⟩ := h
  unfold EqSat.keepNew
  rw [hcontains n]
  split
  · exact ⟨hnodes, hcontains⟩
  · refine ⟨?_, fun m => ?_⟩
    · show kept'.2.push (n.rename ρ) = (kept.2.push n).map (Node.rename ρ)
      rw [hnodes, Array.map_push]
    · show (kept'.1.insert (n.rename ρ)).contains (m.rename ρ) = (kept.1.insert n).contains m
      rw [Std.TreeSet.contains_insert, Std.TreeSet.contains_insert, hcontains, Bool.eq_iff_iff]
      simp only [Bool.or_eq_true, beq_iff_eq, Std.LawfulEqCmp.compare_eq_iff_eq,
        (Node.rename_injective hρ).eq_iff]

theorem distinctNodes_rename (hρ : ρ.Injective) (ns : Array ENode) :
    distinctNodes (ns.map (Node.rename ρ)) = (distinctNodes ns).map (Node.rename ρ) := by
  have key : ∀ (ns : List ENode) (kept kept' : Kept), kept.Renamed ρ kept' →
      (ns.foldl keepNew kept).Renamed ρ ((ns.map (Node.rename ρ)).foldl keepNew kept') := by
    intro ns
    induction ns with
    | nil => exact fun _ _ h => h
    | cons n ns ih => exact fun kept kept' h => ih _ _ (h.keepNew hρ n)
  have h := key ns.toList (∅, #[]) (∅, #[]) ⟨by simp, fun n => by simp⟩
  rw [distinctNodes, distinctNodes, ← Array.foldl_toList, ← Array.foldl_toList, Array.toList_map]
  exact h.1

/-- The last class of each node is that of the renamed one. -/
theorem getElem_foldl_rename (hρ : ρ.Injective) (us : List Usage)
    {m m' : Std.TreeMap ENode ClassId} (h : ∀ n : ENode, m'[n.rename ρ]? = m[n]?) (n : ENode) :
    ((us.map (Usage.rename ρ)).foldl (fun m (u : Usage) => m.insert u.1 u.2) m')[n.rename ρ]? =
      (us.foldl (fun m (u : Usage) => m.insert u.1 u.2) m)[n]? := by
  induction us generalizing m m' with
  | nil => exact h n
  | cons u us ih =>
    refine ih fun k => ?_
    rw [EGraph.getElem_insert, EGraph.getElem_insert, h]
    simp only [Usage.rename, (Node.rename_injective hρ).eq_iff]

theorem distinctUsages_rename (hρ : ρ.Injective) (us : Array Usage) :
    distinctUsages (us.map (Usage.rename ρ)) = (distinctUsages us).map (Usage.rename ρ) := by
  have hfst : (us.map (Usage.rename ρ)).map Prod.fst = (us.map Prod.fst).map (Node.rename ρ) := by
    rw [Array.map_map, Array.map_map]
    rfl
  have hempty : ∀ n : ENode, (∅ : Std.TreeMap ENode ClassId)[n.rename ρ]? =
      (∅ : Std.TreeMap ENode ClassId)[n]? := fun _ => by simp
  have hlast := getElem_foldl_rename hρ us.toList hempty
  rw [← Array.toList_inj, Array.toList_map, EGraph.toList_distinctUsages,
    EGraph.toList_distinctUsages, hfst, distinctNodes_rename hρ, Array.toList_map,
    Array.toList_map, List.filterMap_map, List.map_filterMap]
  refine List.filterMap_congr fun n _ => ?_
  rw [Function.comp_apply, hlast n, Option.map_map]
  rfl

/-! ## Graphs -/

/-- The second graph is the first under new names. -/
structure Renamed (ρ : String → String) (g g' : EGraph) : Prop where
  analysis : g'.analysis = g.analysis
  links : g'.links = g.links
  classes : g'.classes = g.classes.map (Option.map (EClass.rename ρ))
  memo : ∀ n : ENode, g'.memo[n.rename ρ]? = g.memo[n]?
  pending : g'.pending = g.pending.map (Usage.rename ρ)
  foldPending : g'.foldPending = g.foldPending.map (Usage.rename ρ)
  unionCount : g'.unionCount = g.unionCount
  clean : g'.clean = g.clean

theorem renamed_empty (analysis : Analysis) : Renamed ρ (.empty analysis) (.empty analysis) where
  analysis := rfl
  links := rfl
  classes := Array.map_empty.symm
  memo := fun _ => by simp [EGraph.empty]
  pending := rfl
  foldPending := rfl
  unionCount := rfl
  clean := rfl

theorem pushUsages_rename (us : Array Usage) (stack : List Usage) :
    pushUsages (us.map (Usage.rename ρ)) (stack.map (Usage.rename ρ)) =
      (pushUsages us stack).map (Usage.rename ρ) := by
  rw [pushUsages, pushUsages, Array.foldl_map]
  exact Array.foldl_hom (List.map (Usage.rename ρ)) fun _ _ => rfl

/-- Changing a class and renaming commute where they do so on one class. -/
theorem modify_rename {f f' : EClass → EClass} (h : ∀ c, f' (c.rename ρ) = (f c).rename ρ)
    (cs : Array (Option EClass)) (id : ClassId) :
    (cs.map (Option.map (EClass.rename ρ))).modify id (Option.map f') =
      (cs.modify id (Option.map f)).map (Option.map (EClass.rename ρ)) := by
  refine Array.ext_getElem? fun i => ?_
  rw [Array.getElem?_modify, Array.getElem?_map, Array.getElem?_map, Array.getElem?_modify]
  split
  · rcases cs[i]? with _ | _ | c
    · rfl
    · rfl
    · exact congrArg (fun c => some (some c)) (h c)
  · rfl

namespace Renamed

variable {g g' : EGraph}

/-! ### What is looked up -/

theorem find_eq (h : Renamed ρ g g') : g'.find = g.find := by
  funext a
  rw [EGraph.find, EGraph.find, h.links]

theorem stored_eq (h : Renamed ρ g g') (id : ClassId) :
    g'.stored? id = (g.stored? id).map (EClass.rename ρ) := by
  rw [EGraph.stored?, EGraph.stored?, h.classes, Array.getElem?_map]
  rcases g.classes[id]? with _ | _ | c <;> rfl

theorem classAt_eq (h : Renamed ρ g g') (id : ClassId) :
    g'.classAt? id = (g.classAt? id).map (EClass.rename ρ) := by
  rw [EGraph.classAt?, h.find_eq, h.stored_eq, EGraph.classAt?]

theorem constantAt_eq (h : Renamed ρ g g') : g'.constantAt? = g.constantAt? := by
  funext a
  rw [EGraph.constantAt?, EGraph.constantAt?, h.classAt_eq]
  cases g.classAt? a <;> rfl

theorem nodesAt_eq (h : Renamed ρ g g') (id : ClassId) :
    g'.nodesAt id = (g.nodesAt id).map (Node.rename ρ) := by
  rw [EGraph.nodesAt, EGraph.nodesAt, h.classAt_eq]
  cases g.classAt? id with
  | none => rfl
  | some c => exact Array.toList_map

theorem classList_eq (h : Renamed ρ g g') :
    g'.classList = g.classList.map (EClass.rename ρ) := by
  rw [EGraph.classList, EGraph.classList, h.classes, Array.toList_map, List.filterMap_map,
    List.map_filterMap]
  exact List.filterMap_congr fun c _ => by cases c <;> rfl

theorem canonicalize_eq (h : Renamed ρ g g') (n : ENode) :
    g'.canonicalize (n.rename ρ) = (g.canonicalize n).rename ρ := by
  rw [EGraph.canonicalize, h.find_eq, Node.map_rename, EGraph.canonicalize]

theorem foldNode_eq (h : Renamed ρ g g') (n : ENode) :
    g'.foldNode (n.rename ρ) = g.foldNode n := by
  rw [EGraph.foldNode, EGraph.foldNode, h.analysis, h.constantAt_eq, Node.map_rename,
    Node.fold_rename]

/-- What is summed up over the classes, without the names, is the same. -/
theorem foldl_classes (h : Renamed ρ g g') {f : α → Option EClass → α}
    (hf : ∀ a c, f a (Option.map (EClass.rename ρ) c) = f a c) (a : α) :
    g'.classes.foldl f a = g.classes.foldl f a := by
  rw [h.classes, Array.foldl_map]
  simp only [hf]

theorem numClasses_eq (h : Renamed ρ g g') : g'.numClasses = g.numClasses :=
  h.foldl_classes (fun _ c => by rw [Option.isSome_map]) 0

theorem numNodes_eq (h : Renamed ρ g g') : g'.numNodes = g.numNodes :=
  h.foldl_classes (fun _ c => by cases c <;> simp [EClass.rename]) 0

theorem work_eq (h : Renamed ρ g g') : g'.work = g.work := by
  rw [EGraph.work, EGraph.work, h.foldl_classes (fun _ c => by cases c <;> rfl),
    h.foldl_classes (fun _ c => by cases c <;> simp [EClass.rename]), h.pending, h.foldPending,
    List.length_map, List.length_map]

/-! ### What is changed -/

theorem getElem_insert (h : Renamed ρ g g') (hρ : ρ.Injective) (n : ENode) (id : ClassId)
    (m : ENode) : (g'.memo.insert (n.rename ρ) id)[m.rename ρ]? = (g.memo.insert n id)[m]? := by
  rw [EGraph.getElem_insert, EGraph.getElem_insert, h.memo]
  simp only [(Node.rename_injective hρ).eq_iff]

theorem modifyClass (h : Renamed ρ g g') (f f' : EClass → EClass)
    (hf : ∀ c, f' (c.rename ρ) = (f c).rename ρ) (id : ClassId) :
    Renamed ρ (g.modifyClass id f) (g'.modifyClass id f') :=
  { h with
    classes := by
      rw [EGraph.modifyClass, EGraph.modifyClass, h.classes]
      exact modify_rename hf g.classes id }

theorem prune_rename (c : EClass) : (c.rename ρ).prune = c.prune.rename ρ := by
  rw [EClass.prune, EClass.prune, EClass.rename, EClass.rename, Array.filter_map]
  have hleaf : Node.isLeaf ∘ Node.rename ρ = (Node.isLeaf : ENode → Bool) :=
    funext Node.isLeaf_rename
  rw [hleaf]

/-- **A node is entered** under its new name. -/
theorem enter (h : Renamed ρ g g') (hρ : ρ.Injective) (n : ENode) :
    Renamed ρ (g.enter n) (g'.enter (n.rename ρ)) := by
  refine { h with
    links := by rw [EGraph.enter, EGraph.enter, h.links]
    classes := ?_
    memo := fun m => ?_
    clean := rfl }
  · rw [EGraph.enter, EGraph.enter, h.links, h.foldNode_eq, Node.children_rename, h.classes]
    dsimp only
    have hpush : ∀ c : EClass, (g.classes.map (Option.map (EClass.rename ρ))).push
        (some (c.rename ρ)) = (g.classes.push (some c)).map (Option.map (EClass.rename ρ)) :=
      fun c => by rw [Array.map_push, Option.map_some]
    have hclass : (⟨g.links.size, #[n.rename ρ], #[], g.foldNode n⟩ : EClass) =
        EClass.rename ρ ⟨g.links.size, #[n], #[], g.foldNode n⟩ := by simp [EClass.rename]
    rw [hclass, hpush]
    refine List.foldl_hom (Array.map (Option.map (EClass.rename ρ))) fun cs a => ?_
    exact modify_rename (fun c => by simp [EClass.addParent, EClass.rename, Usage.rename]) cs a
  · show (g'.memo.insert (n.rename ρ) g'.links.size)[m.rename ρ]? =
      (g.memo.insert n g.links.size)[m]?
    rw [h.links, h.getElem_insert hρ]

/-- **A class is absorbed** under its new names. -/
theorem absorb (h : Renamed ρ g g') (root : ClassId) (other : EClass) (data : Option Constant) :
    Renamed ρ (g.absorb root other data) (g'.absorb root (other.rename ρ) data) := by
  have hdata : (g'.stored? root).bind (·.data) = (g.stored? root).bind (·.data) := by
    rw [h.stored_eq]
    cases g.stored? root <;> rfl
  have hparents : ((g'.stored? root).map (·.parents)).getD #[] =
      (((g.stored? root).map (·.parents)).getD #[]).map (Usage.rename ρ) := by
    rw [h.stored_eq]
    cases g.stored? root with
    | none => exact Array.map_empty.symm
    | some c => rfl
  refine { h with
    links := by rw [EGraph.absorb, EGraph.absorb, h.links]; rfl
    classes := ?_
    pending := ?_
    foldPending := ?_
    unionCount := by rw [EGraph.absorb, EGraph.absorb, h.unionCount]
    clean := rfl }
  · rw [EGraph.absorb, EGraph.absorb, h.classes]
    dsimp only
    have hset : (g.classes.map (Option.map (EClass.rename ρ))).setIfInBounds other.id none =
        (g.classes.setIfInBounds other.id none).map (Option.map (EClass.rename ρ)) := by
      rw [Array.map_setIfInBounds, Option.map_none]
    show ((g.classes.map _).setIfInBounds other.id none).modify root _ = _
    rw [hset]
    exact modify_rename (fun c => by simp [EClass.rename]) _ root
  · rw [EGraph.absorb, EGraph.absorb, h.pending]
    exact pushUsages_rename _ _
  · rw [EGraph.absorb, EGraph.absorb, hdata, hparents, h.foldPending]
    dsimp only
    show (if data ≠ other.data then _ else _) = List.map _ (if data ≠ other.data then _ else _)
    split <;> split <;> simp only [EClass.rename, pushUsages_rename]

theorem tidyClass_rename (h : Renamed ρ g g') (hρ : ρ.Injective) (c : EClass) :
    g'.tidyClass (c.rename ρ) = (g.tidyClass c).rename ρ := by
  have hnodes : (c.nodes.map (Node.rename ρ)).map g'.canonicalize =
      (c.nodes.map g.canonicalize).map (Node.rename ρ) := by
    rw [Array.map_map, Array.map_map]
    exact Array.map_congr_left fun n _ => h.canonicalize_eq n
  have hparents : (c.parents.map (Usage.rename ρ)).map (fun u =>
      (g'.canonicalize u.1, g'.find u.2)) =
        (c.parents.map fun u => (g.canonicalize u.1, g.find u.2)).map (Usage.rename ρ) := by
    rw [Array.map_map, Array.map_map]
    refine Array.map_congr_left fun u _ => ?_
    show (g'.canonicalize (u.1.rename ρ), g'.find u.2) = _
    rw [h.canonicalize_eq, h.find_eq]
    rfl
  rw [EGraph.tidyClass_eq, EGraph.tidyClass_eq, EClass.rename, EClass.rename]
  dsimp only
  rw [hnodes, hparents, distinctNodes_rename hρ, distinctUsages_rename hρ]

/-- **Tidying** leaves out the same duplicates. -/
theorem tidy (h : Renamed ρ g g') (hρ : ρ.Injective) : Renamed ρ g.tidy g'.tidy :=
  { h with
    classes := by
      rw [EGraph.tidy, EGraph.tidy, h.classes]
      dsimp only
      rw [Array.map_map, Array.map_map]
      refine Array.map_congr_left fun c _ => ?_
      cases c with
      | none => rfl
      | some c => exact congrArg some (h.tidyClass_rename hρ c)
    clean := rfl }

end Renamed

end EqSat
