import EqSat.Proofs.Coherent

/-!
# Reachable graphs are orderly

A graph counts as clean from a rebuild that succeeds until a node enters or classes are joined.
All that time there is nothing to be done on it, and tidying it again changes nothing.  With the
order of the memo and the parents, and with the count of its classes, that holds of every reachable
graph.

    tidy_tidy_eq        tidying twice is tidying once
    Reached.orderly     what holds of every reachable graph
-/

namespace EqSat

/-! ## Distinct lists -/

/-- Nodes of which none is there twice, and none has been seen, are all kept. -/
theorem foldl_keepNew_of_nodup (ns : List ENode) {kept : Kept} (h : kept.Agree) (hns : ns.Nodup)
    (hnew : ∀ n ∈ ns, n ∉ kept.2) : (ns.foldl keepNew kept).2.toList = kept.2.toList ++ ns := by
  induction ns generalizing kept with
  | nil => rw [List.foldl_nil, List.append_nil]
  | cons n ns ih =>
    obtain ⟨hn, hns⟩ := List.nodup_cons.1 hns
    have hkeep : (keepNew kept n).2 = kept.2.push n := by
      have hnot : ¬kept.1.contains n = true := fun hmem => hnew n List.mem_cons_self ((h.2 n).1 hmem)
      rw [keepNew, if_neg hnot]
    have hnew' : ∀ m ∈ ns, m ∉ (keepNew kept n).2 := by
      intro m hm hmem
      rcases (mem_keepNew h m n).1 hmem with hmem | rfl
      · exact hnew m (List.mem_cons_of_mem _ hm) hmem
      · exact hn hm
    rw [List.foldl_cons, ih (agree_keepNew h n) hns hnew', hkeep, Array.toList_push,
      List.append_assoc, List.singleton_append]

theorem distinctNodes_of_nodup {ns : Array ENode} (h : ns.toList.Nodup) :
    distinctNodes ns = ns := by
  rw [← Array.toList_inj, distinctNodes, ← Array.foldl_toList,
    foldl_keepNew_of_nodup _ agree_empty h fun n _ => by simp]
  rfl

namespace EGraph

/-- The usage that is kept for each node. -/
theorem toList_distinctUsages (us : Array Usage) :
    (distinctUsages us).toList = (distinctNodes (us.map Prod.fst)).toList.filterMap fun n =>
      ((us.toList.foldl (fun m (u : Usage) => m.insert u.1 u.2)
        (∅ : Std.TreeMap ENode ClassId))[n]?).map fun id => (n, id) := by
  rw [distinctUsages, Array.toList_filterMap, ← Array.foldl_toList]

theorem nodup_map_fst_distinctUsages (us : Array Usage) :
    ((distinctUsages us).toList.map Prod.fst).Nodup := by
  rw [toList_distinctUsages, List.map_filterMap]
  refine (nodup_distinctNodes _).filterMap fun m n k hm hn => ?_
  obtain ⟨u, hu, rfl⟩ := Option.map_eq_some_iff.1 hm
  obtain ⟨v, hv, hvu⟩ := Option.map_eq_some_iff.1 hn
  obtain ⟨i, hi, rfl⟩ := Option.map_eq_some_iff.1 hu
  obtain ⟨j, hj, rfl⟩ := Option.map_eq_some_iff.1 hv
  exact hvu.symm

/-- A list with one usage for every node is as it should be. -/
theorem distinctUsages_of_nodup {us : Array Usage} (h : (us.toList.map Prod.fst).Nodup) :
    distinctUsages us = us := by
  have hnodes : distinctNodes (us.map Prod.fst) = us.map Prod.fst :=
    distinctNodes_of_nodup (by rwa [Array.toList_map])
  have hlast : ∀ u ∈ us.toList, ((us.toList.foldl (fun m (u : Usage) => m.insert u.1 u.2)
      (∅ : Std.TreeMap ENode ClassId))[u.1]?).map (fun id => (u.1, id)) = some u := by
    intro u hu
    obtain ⟨hin, hout⟩ := getElem_foldl_insert us.toList ∅ u.1
    obtain ⟨id, hid⟩ := hout (Or.inl ⟨u.2, hu⟩)
    rcases hin id hid with hmem | hno
    · rw [hid, Option.map_some, List.inj_on_of_nodup_map h hmem hu rfl]
    · simp at hno
  rw [← Array.toList_inj, toList_distinctUsages, hnodes, Array.toList_map, List.filterMap_map]
  exact (List.filterMap_congr hlast).trans List.filterMap_some

/-! ## Tidying again -/

variable {g g' : EGraph}

theorem tidyClass_tidyClass (hs : g.Shape) (c : EClass) :
    g.tidyClass (g.tidyClass c) = g.tidyClass c := by
  have hnodes : (distinctNodes (c.nodes.map g.canonicalize)).map g.canonicalize =
      distinctNodes (c.nodes.map g.canonicalize) := by
    refine (Array.map_congr_left fun n hn => ?_).trans (Array.map_id _)
    obtain ⟨m, -, rfl⟩ := Array.mem_map.1 (mem_distinctNodes.1 hn)
    exact canonicalize_canonicalize hs m
  have husages : (distinctUsages (c.parents.map fun u => (g.canonicalize u.1, g.find u.2))).map
      (fun u => (g.canonicalize u.1, g.find u.2)) =
      distinctUsages (c.parents.map fun u => (g.canonicalize u.1, g.find u.2)) := by
    refine (Array.map_congr_left fun u hu => ?_).trans (Array.map_id _)
    obtain ⟨v, -, rfl⟩ := Array.mem_map.1 (mem_of_mem_distinctUsages hu)
    exact Prod.ext (canonicalize_canonicalize hs v.1) (find_find hs v.2)
  rw [tidyClass_eq g (g.tidyClass c), tidyClass_eq g c]
  dsimp only
  rw [hnodes, husages, distinctNodes_of_nodup (nodup_distinctNodes _),
    distinctUsages_of_nodup (nodup_map_fst_distinctUsages _)]

/-- Tidying twice is tidying once. -/
theorem tidy_tidy_eq (hs : g.Shape) : g.tidy.tidy = g.tidy := by
  have hclasses : (g.classes.map (Option.map g.tidyClass)).map (Option.map g.tidyClass) =
      g.classes.map (Option.map g.tidyClass) := by
    rw [Array.map_map]
    refine Array.map_congr_left fun c _ => ?_
    cases c with
    | none => rfl
    | some c => exact congrArg some (tidyClass_tidyClass hs c)
  exact congrArg (fun cs => ({ g with classes := cs, clean := true } : EGraph)) hclasses

/-! ## Clean graphs -/

/-- Nothing is left to be done on a clean graph, and tidying it changes nothing. -/
def Rested (g : EGraph) : Prop :=
  g.clean = true → g.pending = [] ∧ g.foldPending = [] ∧ g.tidy = g

theorem Rested.of_stirred (h : g.Rested) (hg : Stirred g g') : g'.Rested := by
  rcases hg with rfl | ⟨hdirty, -⟩
  · exact h
  · intro hclean
    rw [hdirty] at hclean
    cases hclean

theorem drain_of_nil (hp : g.pending = []) (hf : g.foldPending = []) (fuel unions : Nat)
    (stage : Stage) : drain fuel stage unions g = .ok unions g := by
  cases fuel with
  | zero => rfl
  | succ fuel =>
    have htake : takeUsage stage g = none := by
      cases stage <;> simp [takeUsage, hp, hf]
    rw [drain_succ, htake]

/-- Rebuilding a clean graph changes nothing. -/
theorem Rested.rebuild (h : g.Rested) (hclean : g.clean = true) :
    EGraph.rebuild g = .ok 0 g := by
  obtain ⟨hp, hf, htidy⟩ := h hclean
  rw [rebuild_eq, bind_ok (drain_of_nil hp hf _ _ _)]
  show EStateM.Result.ok 0 g.tidy = _
  rw [htidy]

/-! ## Reachable graphs -/

/-- What holds of every reachable graph. -/
structure Orderly (analysis : Analysis) (g : EGraph) : Prop extends Coherent g where
  analysis_eq : g.analysis = analysis
  rested : g.Rested
  balanced : g.Balanced

theorem orderly_empty (analysis : Analysis) : Orderly analysis (empty analysis) where
  toCoherent := coherent_empty analysis
  analysis_eq := rfl
  rested := by
    intro _
    refine ⟨rfl, rfl, ?_⟩
    simp [tidy, empty]
  balanced := rfl

variable {analysis : Analysis}

theorem Orderly.of_ongoing (h : Orderly analysis g) (hc : g'.Coherent) (hon : Ongoing g g')
    (hr : g'.Rested) : Orderly analysis g' :=
  ⟨hc, hon.analysis.trans h.analysis_eq, hr, hon.balanced h.balanced⟩

/-- **Reachable graphs** are orderly. -/
theorem Reached.orderly (h : Reached analysis g) : Orderly analysis g := by
  induction h with
  | empty => exact orderly_empty analysis
  | add _ n hn ih =>
    obtain ⟨id, g', hrun, hc, hon, hstirred⟩ := add_coherent ih.toCoherent hn
    rw [hrun]
    exact ih.of_ongoing hc hon (ih.rested.of_stirred hstirred)
  | union _ a b ha hb ih =>
    rcases union_coherent ih.toIndexed ih.settled (ih.recalled.upTo a b) ha hb with
      ⟨g', hrun, hu⟩ | ⟨e, hrun, -⟩
    · rw [hrun]
      exact ih.of_ongoing hu.coherent hu.ongoing (ih.rested.of_stirred hu.stirred)
    · rw [hrun]
      exact ih
  | @rebuild g _ ih =>
    rcases rebuild_coherent ih.toCoherent with
      ⟨n, g₁, hrun, hc, hon, hp, hf⟩ | ⟨e, g₁, hrun, hc, hon⟩
    · rw [hrun]
      have hon' := hon.toOnward.trans (onward_tidy hc.shape)
      exact ⟨coherent_tidy hc hp, hon'.analysis.trans ih.analysis_eq,
        fun _ => ⟨hp, hf, tidy_tidy_eq hc.shape⟩, hon'.balanced ih.balanced⟩
    · -- a graph whose rebuild fails is not clean, and stays so
      have hdirty : g.clean = false := by
        refine Bool.eq_false_iff.2 fun hclean => ?_
        rw [ih.rested.rebuild hclean] at hrun
        cases hrun
      rw [hrun]
      refine ih.of_ongoing hc hon fun hclean => ?_
      have hdirty' : g₁.clean = true := hclean
      rw [hon.dirty hdirty] at hdirty'
      cases hdirty'

end EGraph

end EqSat
