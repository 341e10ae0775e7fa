import EqSat.EGraph.Basic

/-!
# Extraction

A class stands for all terms that its nodes and the classes below them spell.  Extraction
finds the cheapest: a node has a cost once all of its children have, and the cheapest node
of a class, the first of several, gives the class its cost.  Passes over all classes go on
until no cost falls any more.

A cost function gives the cost of a node over the costs of its children, in any type that
is ordered by `<`.  It should grow with them, and no class should become cheaper by way of
itself; costs that are at least as large as those of the children see to that.  Then the
passes that lower a cost are no more than the classes there are.

    no pass takes a cost away or makes a class dearer        (noDearer_improveAll)
-/

namespace EqSat

/-- The cost of a node over the costs of its children. -/
abbrev CostFunction (κ : Type) := Node κ → κ

namespace CostFunction

/-- Number of nodes in the term. -/
def size : CostFunction Nat := Term.sizeOfNode

/-- Height of the term. -/
def depth : CostFunction Nat
  | .leaf _ => 1
  | .unary _ a => 1 + a
  | .binary _ a b => 1 + max a b

/-- The sum of the weights of the labels in the term; a label that is not listed weighs 1. -/
def weighted {κ : Type} [Add κ] [OfNat κ 0] [OfNat κ 1] (weights : List (String × κ)) :
    CostFunction κ := fun n =>
  (weights.lookup n.label).getD 1 + n.total

end CostFunction

/-- Why nothing can be extracted. -/
inductive ExtractError where
  | notRebuilt
  | noTerm (id : ClassId)
deriving DecidableEq, Repr

def ExtractError.message : ExtractError → String
  | notRebuilt => "e-graph must be rebuilt before extraction"
  | noTerm id => "e-class " ++ toString id ++ " has no finite-cost term"

/-- The cost and the node chosen for each class, by its id. -/
abbrev Choices (κ : Type) := Array (Option (κ × ENode))

namespace Choices

variable {κ : Type}

def choice? (best : Choices κ) (id : ClassId) : Option (κ × ENode) := best[id]?.join

def cost? (best : Choices κ) (id : ClassId) : Option κ := (best.choice? id).map Prod.fst

end Choices

namespace EGraph

variable {κ : Type} [LT κ] [DecidableLT κ]

/-- The cost of a node, once all of its children have one. -/
def nodeCost? (g : EGraph) (cost : CostFunction κ) (best : Choices κ) (n : ENode) : Option κ :=
  (n.mapM fun child => best.cost? (g.find child)).map cost

/-- The first of the cheapest nodes in a list. -/
def cheapest? (g : EGraph) (cost : CostFunction κ) (best : Choices κ) (ns : Array ENode) :
    Option (κ × ENode) :=
  ns.foldl (fun found n =>
    match g.nodeCost? cost best n, found with
    | none, _ => found
    | some k, none => some (k, n)
    | some k, some (least, _) => if k < least then some (k, n) else found) none

/-- Lower the cost of one class if one of its nodes allows it. -/
def improve (g : EGraph) (cost : CostFunction κ) (c : EClass) (best : Choices κ)
    (changed : Bool) : Choices κ × Bool :=
  match g.cheapest? cost best c.nodes with
  | none => (best, changed)
  | some (k, n) =>
    let better := match best.cost? c.id with
      | none => true
      | some old => decide (k < old)
    if better then (best.setIfInBounds c.id (some (k, n)), true) else (best, changed)

/-- One pass over the classes in order; tells whether some cost fell. -/
def improveAll (g : EGraph) (cost : CostFunction κ) :
    List EClass → Choices κ → Bool → Choices κ × Bool
  | [], best, changed => (best, changed)
  | c :: cs, best, changed =>
    let (best, changed) := g.improve cost c best changed
    g.improveAll cost cs best changed

/-- Passes until no cost falls, at most `fuel` of them. -/
def settleCosts (g : EGraph) (cost : CostFunction κ) (cs : List EClass) :
    Nat → Choices κ → Choices κ
  | 0, best => best
  | fuel + 1, best =>
    match g.improveAll cost cs best false with
    | (best, true) => g.settleCosts cost cs fuel best
    | (best, false) => best

/-- The cheapest node of every class and its cost. -/
def choices (g : EGraph) (cost : CostFunction κ) : Choices κ :=
  let cs := g.classList
  g.settleCosts cost cs (cs.length + 1) (Array.replicate g.classes.size none)

/-- The nodes laid out so far, and the positions of the classes they were chosen for. -/
structure Layout where
  term : Term
  places : Std.TreeMap ClassId Nat

/-- Lay out the chosen node of a class after those of its children, each class once; at
most `fuel` classes deep. -/
def layOut {κ : Type} (g : EGraph) (best : Choices κ) : Nat → Layout → ClassId → Layout
  | 0, l, _ => l
  | fuel + 1, l, id =>
    let id := g.find id
    if l.places.contains id then l
    else match best.choice? id with
      | none => l
      | some (_, n) =>
        let l := n.children.foldl (fun l child => g.layOut best fuel l child) l
        match (n.mapM fun child => l.places[g.find child]?).bind l.term.push? with
        | some t => ⟨t, l.places.insert id (t.size - 1)⟩
        | none => l

/-- A cheapest term of a class, found by the cost function. -/
structure Extracted (κ : Type) where
  cost : κ
  head : ENode
  term : Term

/-- Choose a cheapest term of the class of `id`. -/
def extract (g : EGraph) (cost : CostFunction κ) (id : ClassId) :
    Except ExtractError (Extracted κ) :=
  if g.clean then
    let best := g.choices cost
    let root := g.find id
    match best.choice? root with
    | none => .error (.noTerm root)
    | some (k, n) => .ok ⟨k, n, (g.layOut best (g.numClasses + 1) ⟨.empty, ∅⟩ root).term⟩
  else .error .notRebuilt

end EGraph

/-! ## Lemmas -/

namespace Choices

variable {κ : Type} [LE κ] [Std.IsPreorder κ]

/-- Every class that has a cost keeps one, and none gets dearer. -/
def NoDearer {κ : Type} [LE κ] (new old : Choices κ) : Prop :=
  ∀ id k, old.cost? id = some k → ∃ k', new.cost? id = some k' ∧ k' ≤ k

theorem noDearer_refl (best : Choices κ) : NoDearer best best := fun _ k h =>
  ⟨k, h, Std.le_refl k⟩

theorem noDearer_trans {a b c : Choices κ} (hab : NoDearer a b) (hbc : NoDearer b c) :
    NoDearer a c := by
  intro id k h
  obtain ⟨k', h', hle'⟩ := hbc id k h
  obtain ⟨k'', h'', hle''⟩ := hab id k' h'
  exact ⟨k'', h'', Std.le_trans hle'' hle'⟩

theorem noDearer_set {best : Choices κ} {id : ClassId} {k : κ} (n : ENode)
    (h : ∀ old, best.cost? id = some old → k ≤ old) :
    NoDearer (best.setIfInBounds id (some (k, n))) best := by
  intro j m hj
  by_cases hid : id = j
  · subst hid
    have hlt : id < best.size := by
      apply Classical.byContradiction
      intro hge
      have hnone : best[id]? = none := Array.getElem?_eq_none (Nat.le_of_not_lt hge)
      simp [cost?, choice?, hnone] at hj
    refine ⟨k, ?_, h m hj⟩
    simp [cost?, choice?, hlt]
  · refine ⟨m, ?_, Std.le_refl m⟩
    rw [← hj, cost?, cost?, choice?, choice?, Array.getElem?_setIfInBounds_ne hid]

end Choices

namespace EGraph

variable {κ : Type} [LE κ] [LT κ] [DecidableLT κ] [Std.IsPreorder κ] [Std.LawfulOrderLT κ]

theorem noDearer_improve (g : EGraph) (cost : CostFunction κ) (c : EClass) (best : Choices κ)
    (changed : Bool) : (g.improve cost c best changed).1.NoDearer best := by
  unfold improve
  split
  · exact Choices.noDearer_refl best
  · next k n _ =>
    cases hold : best.cost? c.id with
    | none => exact Choices.noDearer_set n fun old h => by rw [hold] at h; cases h
    | some old =>
      by_cases hlt : k < old
      · simp only [hlt, decide_true, if_true]
        refine Choices.noDearer_set n fun old' h => ?_
        rw [hold] at h
        cases h
        exact Std.le_of_lt hlt
      · simp only [hlt, decide_false]
        exact Choices.noDearer_refl best

theorem noDearer_improveAll (g : EGraph) (cost : CostFunction κ) (cs : List EClass)
    (best : Choices κ) (changed : Bool) : (g.improveAll cost cs best changed).1.NoDearer best := by
  induction cs generalizing best changed with
  | nil => exact Choices.noDearer_refl best
  | cons c cs ih =>
    rw [improveAll]
    exact Choices.noDearer_trans (ih _ _) (noDearer_improve g cost c best changed)

theorem noDearer_settleCosts (g : EGraph) (cost : CostFunction κ) (cs : List EClass) (fuel : Nat)
    (best : Choices κ) : (g.settleCosts cost cs fuel best).NoDearer best := by
  induction fuel generalizing best with
  | zero => exact Choices.noDearer_refl best
  | succ fuel ih =>
    have h := noDearer_improveAll g cost cs best false
    rw [settleCosts]
    split
    · next best' heq =>
      rw [heq] at h
      exact Choices.noDearer_trans (ih best') h
    · next best' heq =>
      rw [heq] at h
      exact h

end EGraph

end EqSat
