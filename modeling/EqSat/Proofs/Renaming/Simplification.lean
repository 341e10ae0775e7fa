import EqSat.Proofs.Renaming.Run
import Mathlib.SetTheory.Cardinal.Arithmetic

/-!
# Simplification of renamed terms

Costs that do not depend on names choose the same nodes in a renamed graph, ties included, and the
nodes are laid out in the same order.  So the term found for a renamed term is the renamed one.
Which names there are apart from those of the term does not matter: names that are distinct on the
symbols of the term belong to a renaming of all symbols.

    extract_rename       the same nodes are extracted
    simplify_rename      renaming and simplification commute
-/

namespace EqSat

open EGraph

variable {ρ : String → String} {κ : Type} {g g' : EGraph} {rules : List Rule} {t : Term}

/-! ## Choices -/

/-- The same choice of a renamed node. -/
def renameChoice (ρ : String → String) (c : κ × ENode) : κ × ENode := (c.1, c.2.rename ρ)

def Choices.rename (ρ : String → String) (best : Choices κ) : Choices κ :=
  best.map (Option.map (renameChoice ρ))

theorem Choices.choice_rename (best : Choices κ) (id : ClassId) :
    (best.rename ρ).choice? id = (best.choice? id).map (renameChoice ρ) := by
  rw [choice?, choice?, rename, Array.getElem?_map]
  rcases best[id]? with _ | _ | c <;> rfl

@[simp]
theorem Choices.cost_rename (best : Choices κ) (id : ClassId) :
    (best.rename ρ).cost? id = best.cost? id := by
  rw [cost?, cost?, choice_rename, Option.map_map]
  rfl

/-- Names cost nothing. -/
def CostFunction.Nameless (cost : CostFunction κ) : Prop :=
  ∀ (ρ : String → String) n, cost (n.rename ρ) = cost n

theorem CostFunction.nameless_size : size.Nameless := fun _ n =>
  congrArg (1 + ·) n.total_rename

namespace Renamed

theorem nodeCost_eq (h : Renamed ρ g g') {cost : CostFunction κ} (hcost : cost.Nameless)
    (best : Choices κ) (n : ENode) :
    g'.nodeCost? cost (best.rename ρ) (n.rename ρ) = g.nodeCost? cost best n := by
  rw [nodeCost?, nodeCost?, h.find_eq, Node.mapM_rename, Option.map_map]
  simp only [Choices.cost_rename]
  exact congrArg (Option.map · _) (funext (hcost ρ))

variable [LT κ] [DecidableLT κ]

theorem cheapest_eq (h : Renamed ρ g g') {cost : CostFunction κ} (hcost : cost.Nameless)
    (best : Choices κ) (ns : Array ENode) :
    g'.cheapest? cost (best.rename ρ) (ns.map (Node.rename ρ)) =
      (g.cheapest? cost best ns).map (renameChoice ρ) := by
  rw [cheapest?, cheapest?, Array.foldl_map, ← Option.map_none (f := renameChoice ρ)]
  refine Array.foldl_hom (Option.map (renameChoice ρ)) fun found n => ?_
  rw [h.nodeCost_eq hcost]
  rcases g.nodeCost? cost best n with _ | k
  · rfl
  · rcases found with _ | ⟨least, m⟩
    · rfl
    · show (if k < least then _ else _) = Option.map _ (if k < least then _ else _)
      split <;> rfl

theorem improve_eq (h : Renamed ρ g g') {cost : CostFunction κ} (hcost : cost.Nameless)
    (c : EClass) (best : Choices κ) (changed : Bool) :
    g'.improve cost (c.rename ρ) (best.rename ρ) changed =
      ((g.improve cost c best changed).1.rename ρ, (g.improve cost c best changed).2) := by
  unfold improve
  rw [show (c.rename ρ).nodes = c.nodes.map (Node.rename ρ) from rfl, h.cheapest_eq hcost,
    show (c.rename ρ).id = c.id from rfl, Choices.cost_rename]
  rcases g.cheapest? cost best c.nodes with _ | ⟨k, n⟩
  · rfl
  · have hset : (best.rename ρ).setIfInBounds c.id (some (k, n.rename ρ)) =
        Choices.rename ρ (best.setIfInBounds c.id (some (k, n))) := by
      rw [Choices.rename, Choices.rename, Array.map_setIfInBounds]
      rfl
    dsimp only [Option.map_some, renameChoice]
    rw [hset]
    cases best.cost? c.id with
    | none => rfl
    | some old =>
      dsimp only
      split <;> rfl

theorem improveAll_eq (h : Renamed ρ g g') {cost : CostFunction κ} (hcost : cost.Nameless)
    (cs : List EClass) (best : Choices κ) (changed : Bool) :
    g'.improveAll cost (cs.map (EClass.rename ρ)) (best.rename ρ) changed =
      ((g.improveAll cost cs best changed).1.rename ρ, (g.improveAll cost cs best changed).2) := by
  induction cs generalizing best changed with
  | nil => rfl
  | cons c cs ih =>
    rw [List.map_cons, improveAll, improveAll, h.improve_eq hcost]
    exact ih _ _

theorem settleCosts_eq (h : Renamed ρ g g') {cost : CostFunction κ} (hcost : cost.Nameless)
    (cs : List EClass) (fuel : Nat) (best : Choices κ) :
    g'.settleCosts cost (cs.map (EClass.rename ρ)) fuel (best.rename ρ) =
      (g.settleCosts cost cs fuel best).rename ρ := by
  induction fuel generalizing best with
  | zero => rfl
  | succ fuel ih =>
    rw [settleCosts, settleCosts, h.improveAll_eq hcost]
    rcases g.improveAll cost cs best false with ⟨best', _ | _⟩
    · rfl
    · exact ih best'

/-- **The same nodes** are chosen. -/
theorem choices_eq (h : Renamed ρ g g') {cost : CostFunction κ} (hcost : cost.Nameless) :
    g'.choices cost = (g.choices cost).rename ρ := by
  have hnone : Choices.rename ρ (Array.replicate g.classes.size none : Choices κ) =
      Array.replicate g.classes.size none := by
    rw [Choices.rename, Array.map_replicate]
    rfl
  have hsettle := h.settleCosts_eq hcost g.classList (g.classList.length + 1)
    (Array.replicate g.classes.size none)
  rw [hnone] at hsettle
  rw [choices, choices, h.classList_eq, List.length_map, h.classes, Array.size_map]
  exact hsettle

end Renamed

/-! ## Terms -/

@[simp]
theorem Term.size_rename (t : Term) : (t.rename ρ).size = t.size := Array.size_map

theorem Term.push_rename (t : Term) (n : Node Nat) :
    (t.rename ρ).push? (n.rename ρ) = (t.push? n).map (Term.rename ρ) := by
  unfold push?
  simp only [Node.children_rename, size_rename]
  split
  · refine congrArg some (eq_of_nodes ?_)
    exact Array.map_push.symm
  · rfl

/-- The same layout of the renamed term. -/
def EGraph.Layout.rename (ρ : String → String) (l : Layout) : Layout := ⟨l.term.rename ρ, l.places⟩

/-- **The same layout**, node by node. -/
theorem Renamed.layOut_eq (h : Renamed ρ g g') (best : Choices κ) (fuel : Nat) (l : Layout)
    (id : ClassId) :
    g'.layOut (best.rename ρ) fuel (l.rename ρ) id = (g.layOut best fuel l id).rename ρ := by
  induction fuel generalizing l id with
  | zero => rfl
  | succ fuel ih =>
    rw [layOut, layOut, h.find_eq, Choices.choice_rename]
    dsimp only
    rw [show (l.rename ρ).places = l.places from rfl]
    split
    · rfl
    · cases best.choice? (g.find id) with
      | none => rfl
      | some c =>
        dsimp only [Option.map_some, renameChoice]
        rw [Node.children_rename, List.foldl_hom (Layout.rename ρ) ih, Node.mapM_rename]
        generalize c.2.children.foldl (fun l child => g.layOut best fuel l child) l = l'
        rw [show (l'.rename ρ).places = l'.places from rfl]
        have hpush : ((c.2.mapM fun child => l'.places[g.find child]?).map (Node.rename ρ)).bind
            (l'.rename ρ).term.push? =
              ((c.2.mapM fun child => l'.places[g.find child]?).bind l'.term.push?).map
                (Term.rename ρ) := by
          cases c.2.mapM fun child => l'.places[g.find child]? with
          | none => rfl
          | some n => exact l'.term.push_rename n
        rw [hpush]
        cases (c.2.mapM fun child => l'.places[g.find child]?).bind l'.term.push? with
        | none => rfl
        | some t =>
          dsimp only [Option.map_some]
          rw [Term.size_rename]
          rfl

/-- The same term, under its new names. -/
def EGraph.Extracted.rename (ρ : String → String) (e : Extracted κ) : Extracted κ :=
  ⟨e.cost, e.head.rename ρ, e.term.rename ρ⟩

/-- **Extraction** from a renamed graph gives the renamed term. -/
theorem Renamed.extract_eq [LT κ] [DecidableLT κ] (h : Renamed ρ g g') {cost : CostFunction κ}
    (hcost : cost.Nameless) (id : ClassId) :
    g'.extract cost id = (g.extract cost id).map (Extracted.rename ρ) := by
  rw [extract, extract, h.clean]
  split
  · dsimp only
    rw [h.find_eq, h.choices_eq hcost, Choices.choice_rename]
    cases (g.choices cost).choice? (g.find id) with
    | none => rfl
    | some c =>
      have hempty : Layout.rename ρ ⟨.empty, ∅⟩ = ⟨.empty, ∅⟩ :=
        congrArg (Layout.mk · ∅) (Term.eq_of_nodes Array.map_empty)
      have hlayout := h.layOut_eq (g.choices cost) (g.numClasses + 1) ⟨.empty, ∅⟩ (g.find id)
      rw [hempty] at hlayout
      rw [h.numClasses_eq]
      exact congrArg (fun l : Layout => Except.ok (⟨c.1, c.2.rename ρ, l.term⟩ : Extracted κ))
        hlayout
  · rfl

/-! ## Simplification -/

/-- Two runs report the same rounds and leave graphs of the same size. -/
structure SameNumbers (r r' : Runner) : Prop where
  report : r'.report = r.report
  unionCount : r'.egraph.unionCount = r.egraph.unionCount
  numNodes : r'.egraph.numNodes = r.egraph.numNodes
  numClasses : r'.egraph.numClasses = r.egraph.numClasses

theorem simplifyWith_rename (hρ : ρ.Injective) (hrules : ∀ r ∈ rules, r.SymbolFree)
    (limits : Limits) (t : Term) :
    ((t.rename ρ).simplifyWith rules limits).1 =
        (t.simplifyWith rules limits).1.map (Term.rename ρ) ∧
      SameNumbers (t.simplifyWith rules limits).2 ((t.rename ρ).simplifyWith rules limits).2 := by
  obtain ⟨hsame, hr⟩ := saturate_rename hρ hrules limits t
  unfold Term.simplifyWith
  generalize saturate rules limits t = s, saturate rules limits (t.rename ρ) = s' at hsame hr ⊢
  obtain ⟨outcome, r⟩ := s
  obtain ⟨outcome', r'⟩ := s'
  obtain rfl : outcome' = outcome := hsame
  have hnumbers : SameNumbers r r' :=
    ⟨hr.report_eq, hr.egraph.unionCount, hr.egraph.numNodes_eq, hr.egraph.numClasses_eq⟩
  cases outcome' with
  | error e => exact ⟨rfl, hnumbers⟩
  | ok root =>
    refine ⟨?_, hnumbers⟩
    dsimp only
    rw [hr.egraph.extract_eq CostFunction.nameless_size]
    cases r.egraph.extract .size root <;> rfl

/-- Names that are distinct on some symbols belong to a renaming of all symbols. -/
theorem exists_renaming {S : List String} (hρ : ∀ x ∈ S, ∀ y ∈ S, ρ x = ρ y → x = y) :
    ∃ π : String → String, π.Injective ∧ ∀ x ∈ S, π x = ρ x := by
  have hinfinite : Infinite String := Infinite.of_injective String.ofList fun a b h => by
    simpa using congrArg String.toList h
  have hfinite : {x | x ∈ S}.Finite := S.finite_toSet
  obtain ⟨π, hπ⟩ := Cardinal.extend_function_of_lt (s := {x | x ∈ S})
    ⟨fun x => ρ x.1, fun x y h => Subtype.ext (hρ x.1 x.2 y.1 y.2 h)⟩
    (hfinite.lt_aleph0.trans_le (Cardinal.aleph0_le_mk String)) ⟨Equiv.refl String⟩
  exact ⟨π, π.injective, fun x hx => hπ ⟨x, hx⟩⟩

/-- Only the names of the term's symbols matter. -/
theorem Term.rename_congr {π : String → String} (h : ∀ x ∈ t.symbols, π x = ρ x) :
    t.rename π = t.rename ρ := by
  refine eq_of_nodes (Array.map_congr_left fun n hn => ?_)
  cases n with
  | leaf l =>
    cases l with
    | const c => rfl
    | var x =>
      have hx := h x (mem_symbols.2 (Array.mem_toList_iff.2 hn))
      rw [Node.rename, Node.rename, Leaf.rename, Leaf.rename, hx]
  | unary op a => rfl
  | binary op a b => rfl

/-- **Renaming and simplification commute.**  Where the rules name no symbols, as the built-in ones
do not, and the symbols of a term get distinct names, the renamed term is simplified to the renamed
result, node for node, or fails with the same conflict.  The rounds are the same in number and in
what they count, and stop for the same reason. -/
theorem simplify_rename (hρ : ∀ x ∈ t.symbols, ∀ y ∈ t.symbols, ρ x = ρ y → x = y)
    (hrules : ∀ r ∈ rules, r.SymbolFree) (limits : Limits) :
    (∀ r ∈ Rule.defaults, r.SymbolFree) ∧
      ((t.rename ρ).simplifyWith rules limits).1 =
        (t.simplifyWith rules limits).1.map (Term.rename ρ) ∧
      SameNumbers (t.simplifyWith rules limits).2 ((t.rename ρ).simplifyWith rules limits).2 := by
  obtain ⟨π, hπ, hsame⟩ := exists_renaming hρ
  obtain ⟨houtcome, hnumbers⟩ := simplifyWith_rename hπ hrules limits t
  rw [Term.rename_congr hsame] at houtcome hnumbers
  refine ⟨symbols_default, ?_, hnumbers⟩
  rw [houtcome]
  cases hok : (t.simplifyWith rules limits).1 with
  | error e => rfl
  | ok best =>
    -- the result has no symbols but those of the term
    refine congrArg Except.ok (Term.rename_congr fun x hx => hsame x ?_)
    refine (mem_symbols_of_simplify hok hx).resolve_right ?_
    rintro ⟨r, hr, hmem⟩
    rw [(hrules r hr).2] at hmem
    cases hmem

/-- Two symbols that change places do so in the result, too. -/
theorem simplify_rename_swapped :
    let t := Term.ofTree (.binary .add (.binary .mul (.leaf (.const (.int 1))) (.leaf (.var "p")))
      (.binary .sub (.leaf (.var "q")) (.leaf (.var "q"))))
    let ρ : String → String := fun x => if x = "p" then "q" else if x = "q" then "p" else x
    (∀ x ∈ t.symbols, ∀ y ∈ t.symbols, ρ x = ρ y → x = y) ∧
      (∃ best, (t.simplifyWith Rule.defaults .default).1 = .ok best ∧
        ((t.rename ρ).simplifyWith Rule.defaults .default).1 = .ok (best.rename ρ) ∧
        best.symbols = ["p"] ∧ (best.rename ρ).symbols = ["q"]) ∧
      SameNumbers (t.simplifyWith Rule.defaults .default).2
        ((t.rename ρ).simplifyWith Rule.defaults .default).2 := by
  intro t ρ
  have hρ : ∀ x ∈ t.symbols, ∀ y ∈ t.symbols, ρ x = ρ y → x = y := by decide
  obtain ⟨-, houtcome, hnumbers⟩ := simplify_rename hρ symbols_default .default
  have hrun : (t.simplifyWith Rule.defaults .default).1.toOption.map (fun best =>
      (best.symbols, (best.rename ρ).symbols)) = some (["p"], ["q"]) := by decide +kernel
  refine ⟨hρ, ?_, hnumbers⟩
  rw [houtcome]
  cases hok : (t.simplifyWith Rule.defaults .default).1 with
  | error e =>
    rw [hok] at hrun
    cases hrun
  | ok best =>
    rw [hok] at hrun
    obtain ⟨hbest, hrenamed⟩ := Prod.mk.inj (Option.some.inj hrun)
    exact ⟨best, rfl, rfl, hbest, hrenamed⟩

end EqSat
