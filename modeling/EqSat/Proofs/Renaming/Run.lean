import EqSat.Proofs.Renaming.Update
import EqSat.Proofs.Saturated

/-!
# Runs on renamed graphs

A pattern that names no symbols matches a renamed graph where it matches the graph, in the same
order, and builds the same nodes.  So a run by such rules goes on in step with a run on the renamed
graph, up to the same limit, and reports the same numbers.

    Renamed.search_eq          the same matches in the same order
    Renamed.saturateOnce       one round
    Renamed.run                and all of them
-/

namespace EqSat

open EGraph

variable {ρ : String → String} {g g' : EGraph} {rules : List Rule}

/-- The patterns of the rule name no symbols. -/
def Rule.SymbolFree (r : Rule) : Prop := r.lhs.symbols = [] ∧ r.rhs.symbols = []

/-! ## Matches -/

theorem Leaf.rename_of_symbol {l : Leaf} (h : l.symbol? = none) : l.rename ρ = l := by
  cases l with
  | const c => rfl
  | var x => cases h

theorem Leaf.rename_eq_iff (hρ : ρ.Injective) {l l' : Leaf} :
    l.rename ρ = l'.rename ρ ↔ l = l' := by
  cases l <;> cases l' <;> simp [rename, hρ.eq_iff]

namespace Renamed

/-- **A pattern without symbols** matches a class in the same ways. -/
theorem matchesAt_eq (h : Renamed ρ g g') (hρ : ρ.Injective) {p : Pattern} (hp : p.symbols = [])
    (s : Subst) (id : ClassId) : p.matchesAt g' s id = p.matchesAt g s id := by
  induction p generalizing s id with
  | hole x => rw [Pattern.matchesAt, Pattern.matchesAt, h.find_eq]
  | leaf l =>
    have hl : l.rename ρ = l := Leaf.rename_of_symbol (by simpa [Pattern.symbols] using hp)
    rw [Pattern.matchesAt, Pattern.matchesAt, h.nodesAt_eq, List.flatMap_map]
    refine List.flatMap_congr fun n _ => ?_
    cases n with
    | leaf l' =>
      show (if l'.rename ρ = l then _ else _) = if l' = l then _ else _
      have hiff : l'.rename ρ = l ↔ l' = l := by rw [← hl, Leaf.rename_eq_iff hρ, hl]
      simp only [hiff]
    | unary op a => rfl
    | binary op a b => rfl
  | unary op p ih =>
    rw [Pattern.matchesAt, Pattern.matchesAt, h.nodesAt_eq, List.flatMap_map]
    refine List.flatMap_congr fun n _ => ?_
    cases n with
    | leaf l => rfl
    | unary op' a => simp only [Node.rename, ih hp]
    | binary op' a b => rfl
  | binary op p q ihp ihq =>
    obtain ⟨hp, hq⟩ := List.append_eq_nil_iff.1 hp
    rw [Pattern.matchesAt, Pattern.matchesAt, h.nodesAt_eq, List.flatMap_map]
    refine List.flatMap_congr fun n _ => ?_
    cases n with
    | leaf l => rfl
    | unary op' a => rfl
    | binary op' a b => simp only [Node.rename, ihp hp, ihq hq]

/-- **The same matches** are found, in the same order. -/
theorem search_eq (h : Renamed ρ g g') (hρ : ρ.Injective) {p : Pattern} (hp : p.symbols = []) :
    p.search g' = p.search g := by
  rw [Pattern.search, Pattern.search, h.classList_eq, List.flatMap_map]
  refine List.flatMap_congr fun c _ => ?_
  show (Subst.distinct (p.matchesAt g' [] c.id)).map _ = _
  rw [h.matchesAt_eq hρ hp]
  rfl

/-! ## Rounds -/

theorem build (h : Renamed ρ g g') (hρ : ρ.Injective) {p : Pattern} (hp : p.symbols = [])
    (s : Subst) : InStep (Renamed ρ) (p.build s g) (p.build s g') := by
  induction p generalizing g g' with
  | hole x =>
    show InStep (Renamed ρ) (.ok (g.find (s.get x)) g) (.ok (g'.find (s.get x)) g')
    rw [h.find_eq]
    exact .ok _ h
  | leaf l =>
    have hl : l.rename ρ = l := Leaf.rename_of_symbol (by simpa [Pattern.symbols] using hp)
    have hadd := h.add hρ (.leaf l)
    rwa [Node.rename, hl] at hadd
  | unary op p ih => exact (ih h hp).bind fun a _ _ h => h.add hρ (.unary op a)
  | binary op p q ihp ihq =>
    obtain ⟨hp, hq⟩ := List.append_eq_nil_iff.1 hp
    exact (ihp h hp).bind fun a _ _ h => (ihq h hq).bind fun b _ _ h => h.add hρ (.binary op a b)

theorem applyMatch (h : Renamed ρ g g') (hρ : ρ.Injective) {r : Rule} (hr : r.SymbolFree)
    (m : Match) : InStep (Renamed ρ) (r.applyMatch m g) (r.applyMatch m g') := by
  have hguard : ∀ guard : Guard, guard.passes g' m.2 = guard.passes g m.2 := by
    rintro ⟨condition, x⟩
    cases condition
    simp only [Guard.passes, Condition.holds, h.constantAt_eq]
  rw [Rule.applyMatch_eq, Rule.applyMatch_eq]
  simp only [hguard]
  split
  · exact (h.build hρ hr.2 m.2).bind fun b _ _ h => h.union hρ m.1 b
  · exact .ok false h

theorem applyFrom (h : Renamed ρ g g') (hρ : ρ.Injective) {r : Rule} (hr : r.SymbolFree)
    (ms : List Match) (joined : Nat) :
    InStep (Renamed ρ) (r.applyFrom ms joined g) (r.applyFrom ms joined g') := by
  induction ms generalizing g g' joined with
  | nil => exact .ok joined h
  | cons m ms ih => exact (h.applyMatch hρ hr m).bind fun changed _ _ h => ih h _

theorem applyFound (h : Renamed ρ g g') (hρ : ρ.Injective) (nodeLimit : Nat)
    {found : List (Rule × List Match)} (hfound : ∀ f ∈ found, f.1.SymbolFree) (applied : Tally) :
    InStep (Renamed ρ) (EGraph.applyFound nodeLimit found applied g)
      (EGraph.applyFound nodeLimit found applied g') := by
  induction found generalizing g g' applied with
  | nil => exact .ok applied h
  | cons f rest ih =>
    obtain ⟨r, ms⟩ := f
    have hrest : ∀ f ∈ rest, f.1.SymbolFree := fun f hf => hfound f (List.mem_cons_of_mem _ hf)
    rw [EGraph.applyFound]
    split
    · exact ih h hrest applied
    · refine (h.applyFrom hρ (hfound _ List.mem_cons_self) ms 0).bind fun joined g₁ g₁' h => ?_
      show InStep (Renamed ρ) ((if g₁.numNodes > nodeLimit then return _ else _ : Update Tally) g₁)
        ((if g₁'.numNodes > nodeLimit then return _ else _ : Update Tally) g₁')
      rw [h.numNodes_eq]
      split
      · exact .ok _ h
      · exact ih h hrest _

/-- **One round** gives the same numbers. -/
theorem saturateOnce (h : Renamed ρ g g') (hρ : ρ.Injective)
    (hrules : ∀ r ∈ rules, r.SymbolFree) (nodeLimit index : Nat) :
    InStep (Renamed ρ) (EGraph.saturateOnce rules nodeLimit index g)
      (EGraph.saturateOnce rules nodeLimit index g') := by
  have hfound : (rules.map fun r => (r, r.search g')) = rules.map fun r => (r, r.search g) :=
    List.map_congr_left fun r hr => by rw [Rule.search, h.search_eq hρ (hrules r hr).1, Rule.search]
  have hfree : ∀ f ∈ rules.map fun r => (r, r.search g), f.1.SymbolFree :=
    List.forall_mem_map.2 hrules
  rw [saturateOnce_eq, saturateOnce_eq, hfound, h.unionCount, h.numNodes_eq, h.numClasses_eq]
  refine (h.applyFound hρ nodeLimit hfree []).bind fun applied _ _ h => ?_
  refine (h.rebuild hρ).bind fun rebuildUnions g₁ g₁' h => ?_
  show InStep (Renamed ρ) (.ok _ g₁) (.ok _ g₁')
  rw [h.unionCount, h.numNodes_eq, h.numClasses_eq]
  exact .ok _ h

/-! ## Seeds -/

theorem addNodes (h : Renamed ρ g g') (hρ : ρ.Injective) (ns : List (Node Nat))
    (ids : Array ClassId) :
    InStep (Renamed ρ) (EGraph.addNodes ns ids g)
      (EGraph.addNodes (ns.map (Node.rename ρ)) ids g') := by
  induction ns generalizing g g' ids with
  | nil => exact .ok ids h
  | cons n ns ih =>
    rw [List.map_cons, EGraph.addNodes, EGraph.addNodes, Node.mapM_rename]
    cases n.mapM (ids[·]?) with
    | none => exact ih h ids
    | some m => exact (h.add hρ m).bind fun id _ _ h => ih h _

theorem addTerm (h : Renamed ρ g g') (hρ : ρ.Injective) (t : Term) :
    InStep (Renamed ρ) (EGraph.addTerm t g) (EGraph.addTerm (t.rename ρ) g') := by
  have hnodes : (t.rename ρ).nodes.toList = t.nodes.toList.map (Node.rename ρ) := Array.toList_map
  rw [EGraph.addTerm, EGraph.addTerm, hnodes]
  refine (h.addNodes hρ t.nodes.toList #[]).bind fun ids g₁ g₁' h => ?_
  show InStep (Renamed ρ) (.ok (ids.back?.map g₁.find) g₁) (.ok (ids.back?.map g₁'.find) g₁')
  rw [h.find_eq]
  exact .ok _ h

end Renamed

/-! ## Runners -/

namespace Runner

/-- The same runner on a renamed graph, with rules that name no symbols. -/
inductive Renamed (ρ : String → String) : Runner → Runner → Prop where
  | intro {r : Runner} {g' : EGraph} (hrules : ∀ rule ∈ r.rules, rule.SymbolFree)
    (h : EqSat.Renamed ρ r.egraph g') : Renamed ρ r { r with egraph := g' }

theorem Renamed.report_eq {r r' : Runner} (h : r.Renamed ρ r') : r'.report = r.report := by
  obtain ⟨-, -⟩ := h
  rfl

theorem Renamed.egraph {r r' : Runner} (h : r.Renamed ρ r') :
    EqSat.Renamed ρ r.egraph r'.egraph := by
  obtain ⟨-, hg⟩ := h
  exact hg

theorem inStep_onGraph {α : Type} {f f' : Update α} {r : Runner} {g' : EGraph}
    (hrules : ∀ rule ∈ r.rules, rule.SymbolFree)
    (h : InStep (EqSat.Renamed ρ) (f r.egraph) (f' g')) :
    InStep (Renamed ρ) (onGraph f r) (onGraph f' { r with egraph := g' }) := by
  generalize hrun : f r.egraph = res, hrun' : f' g' = res' at h
  cases h with
  | ok a h =>
    rw [onGraph_ok hrun, onGraph_ok (r := { r with egraph := g' }) hrun']
    exact .ok a (.intro hrules h)
  | error e h =>
    rw [onGraph_error hrun, onGraph_error (r := { r with egraph := g' }) hrun']
    exact .error e (.intro hrules h)

theorem Renamed.seed {r r' : Runner} (h : r.Renamed ρ r') (hρ : ρ.Injective) (t : Term) :
    InStep (Renamed ρ) (Runner.seed t r) (Runner.seed (t.rename ρ) r') := by
  obtain ⟨hrules, hg⟩ := h
  refine (inStep_onGraph hrules (hg.addTerm hρ t)).bind fun id r r' h => ?_
  cases id with
  | none => exact .ok none h
  | some id =>
    obtain ⟨hrules, hg⟩ := h
    have hpush := Renamed.intro (r := { r with roots := r.roots.push id }) hrules hg
    refine InStep.bind (R := Renamed ρ) (.ok () hpush) fun _ r r' h => ?_
    obtain ⟨hrules, hg⟩ := h
    exact (inStep_onGraph hrules (hg.rebuild hρ)).bind fun _ _ _ h => .ok (some id) h

theorem Renamed.runWithin {r r' : Runner} (h : r.Renamed ρ r') (hρ : ρ.Injective) (n : Nat) :
    InStep (Renamed ρ) (Runner.runWithin n r) (Runner.runWithin n r') := by
  induction n generalizing r r' with
  | zero => exact .ok _ h
  | succ n ih =>
    obtain ⟨hrules, hg⟩ := h
    rw [runWithin_succ, runWithin_succ]
    dsimp only
    rw [hg.numNodes_eq]
    split
    · exact .ok _ (.intro hrules hg)
    · next g' _ =>
      have hround := hg.saturateOnce hρ hrules r.limits.nodes r.report.iterations.size
      generalize EGraph.saturateOnce r.rules r.limits.nodes r.report.iterations.size r.egraph = res,
        EGraph.saturateOnce r.rules r.limits.nodes r.report.iterations.size g' = res' at hround
      cases hround with
      | error e h => exact .error e (.intro hrules h)
      | ok it h =>
        dsimp only
        split
        · exact .ok _ (.intro hrules h)
        · exact ih (.intro hrules h)

/-- **A run** goes on in step with one on the renamed graph. -/
theorem Renamed.run {r r' : Runner} (h : r.Renamed ρ r') (hρ : ρ.Injective) :
    InStep (Renamed ρ) (Runner.run r) (Runner.run r') := by
  have hsame : r'.limits = r.limits ∧ r'.report = r.report := by
    obtain ⟨-, -⟩ := h
    exact ⟨rfl, rfl⟩
  rw [run_eq, run_eq, hsame.1, hsame.2]
  refine (h.runWithin hρ _).bind fun reason r r' h => ?_
  obtain ⟨hrules, hg⟩ := h
  exact .ok reason (.intro hrules hg)

end Runner

/-- **A saturation** of the renamed term has the same outcome, in a renamed graph. -/
theorem saturate_rename (hρ : ρ.Injective) (hrules : ∀ rule ∈ rules, rule.SymbolFree)
    (limits : Limits) (t : Term) :
    (saturate rules limits (t.rename ρ)).1 = (saturate rules limits t).1 ∧
      (saturate rules limits t).2.Renamed ρ (saturate rules limits (t.rename ρ)).2 := by
  have hmake : (Runner.make rules limits .constantFolding).Renamed ρ
      (.make rules limits .constantFolding) :=
    .intro (r := .make rules limits .constantFolding) hrules (renamed_empty _)
  have hrun : InStep (Runner.Renamed ρ)
      (Runner.saturate t (.make rules limits .constantFolding))
      (Runner.saturate (t.rename ρ) (.make rules limits .constantFolding)) := by
    refine (hmake.seed hρ t).bind fun id r r' h => ?_
    cases id with
    | none => exact .ok none h
    | some root =>
      refine (h.run hρ).bind fun _ r r' h => ?_
      show InStep _ (.ok (some (r.egraph.find root)) r) (.ok (some (r'.egraph.find root)) r')
      rw [h.egraph.find_eq]
      exact .ok _ h
  unfold saturate
  generalize Runner.saturate t (.make rules limits .constantFolding) = res,
    Runner.saturate (t.rename ρ) (.make rules limits .constantFolding) = res' at hrun
  cases hrun with
  | error e h => exact ⟨rfl, h⟩
  | ok id h =>
    cases id with
    | none => exact ⟨rfl, h⟩
    | some root => exact ⟨rfl, h⟩

end EqSat
