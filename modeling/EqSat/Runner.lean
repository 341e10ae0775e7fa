import EqSat.EGraph.Rebuild
import EqSat.Report
import EqSat.Rule

/-!
# Equality saturation

A runner owns an e-graph seeded with terms.  In each round it searches for the matches of
all rules in the same graph, applies the rules in order, and rebuilds; it stops when a round
changes nothing, or at a limit.

    a run ends with at most as many rounds as before it or as the limit        (size_run)
-/

namespace EqSat

/-- At most so many rounds, and no new round on a graph of more nodes. -/
structure Limits where
  iterations : Nat
  nodes : Nat
  iterations_pos : 0 < iterations
  nodes_pos : 0 < nodes
deriving DecidableEq, Repr

/-- A limit that is not positive. -/
inductive LimitError where
  | iterations (given : Int)
  | nodes (given : Int)
deriving DecidableEq, Repr

def LimitError.message : LimitError → String
  | iterations given => "iter_limit must be positive, got " ++ toString given
  | nodes given => "node_limit must be positive, got " ++ toString given

namespace Limits

def defaultIterations : Nat := 30

def defaultNodes : Nat := 10000

def default : Limits := ⟨defaultIterations, defaultNodes, by decide, by decide⟩

def make (iterations nodes : Int) : Except LimitError Limits :=
  if hi : iterations ≤ 0 then .error (.iterations iterations)
  else if hn : nodes ≤ 0 then .error (.nodes nodes)
  else .ok ⟨iterations.toNat, nodes.toNat, by omega, by omega⟩

end Limits

/-- An e-graph, the rules that it is saturated with, and what happened so far.  `roots` are
the classes of the seed terms. -/
structure Runner where
  rules : List Rule
  limits : Limits
  egraph : EGraph
  roots : Array ClassId
  report : Report

/-! ## A round -/

namespace EGraph

/-- Apply the rules to their matches in order, up to the one that makes the graph larger
than `nodeLimit`. -/
def applyFound (nodeLimit : Nat) : List (Rule × List Match) → Tally → Update Tally
  | [], applied => return applied
  | (r, ms) :: rest, applied => do
    if ms.isEmpty then applyFound nodeLimit rest applied
    else
      let joined ← r.applyAll ms
      let applied := if joined = 0 then applied else applied.count r.name joined
      if (← get).numNodes > nodeLimit then return applied
      else applyFound nodeLimit rest applied

/-- The numbers of matches of the rules that have any. -/
def tallyFound (found : List (Rule × List Match)) : Tally :=
  found.foldl (fun t (r, ms) => if ms.isEmpty then t else t.put r.name ms.length) []

/-- One round. -/
def saturateOnce (rules : List Rule) (nodeLimit index : Nat) : Update Iteration := do
  let g ← get
  let unions := g.unionCount
  let nodes := g.numNodes
  let classes := g.numClasses
  let found := rules.map fun r => (r, r.search g)
  let applied ← applyFound nodeLimit found []
  let rebuildUnions ← rebuild
  let g ← get
  return {
    index := index
    found := tallyFound found
    applied := applied
    rebuildUnions := rebuildUnions
    nodes := g.numNodes
    classes := g.numClasses
    saturated := g.unionCount == unions && g.numNodes == nodes && g.numClasses == classes }

end EGraph

/-! ## A run -/

/-- A step of a runner, which a conflict of constants may cut short. -/
abbrev RunM := EStateM Conflict Runner

namespace Runner

/-- A runner without seeds. -/
def make (rules : List Rule) (limits : Limits) (analysis : Analysis) : Runner :=
  ⟨rules, limits, .empty analysis, #[], .empty⟩

/-- Change the runner's graph. -/
def onGraph {α : Type} (f : Update α) : RunM α := fun r =>
  let g := r.egraph
  let r := { r with egraph := .empty .empty }
  match f g with
  | .ok a g => .ok a { r with egraph := g }
  | .error e g => .error e { r with egraph := g }

/-- Add a term and rebuild; gives the class of its root, which becomes the next of the
roots.  A term without nodes changes nothing. -/
def seed (t : Term) : RunM (Option ClassId) := do
  match ← onGraph (EGraph.addTerm t) with
  | none => return none
  | some id =>
    modify fun r => { r with roots := r.roots.push id }
    let _ ← onGraph EGraph.rebuild
    return some id

/-- Run at most `rest` more rounds. -/
def runWithin : Nat → RunM StopReason
  | 0 => return .iterationLimit
  | rest + 1 => do
    let r ← get
    let rules := r.rules
    let nodeLimit := r.limits.nodes
    let index := r.report.iterations.size
    if r.egraph.numNodes > nodeLimit then return .nodeLimit
    let it ← onGraph (EGraph.saturateOnce rules nodeLimit index)
    modify fun r => { r with report := { r.report with iterations := r.report.iterations.push it } }
    if it.saturated then return .saturated
    runWithin rest

/-- Run until nothing changes or a limit is reached, counting the rounds of earlier runs. -/
def run : RunM StopReason := do
  let r ← get
  let reason ← runWithin (r.limits.iterations - r.report.iterations.size)
  modify fun r => { r with report := { r.report with stopReason := some reason } }
  return reason

/-- The seeds with these numbers are known to be equal. -/
def equivalent (r : Runner) (i j : Nat) : Bool :=
  match r.roots[i]?, r.roots[j]? with
  | some a, some b => r.egraph.equivalent a b
  | _, _ => false

/-! ## Lemmas -/

/-- The runner that a step leaves, whether or not the step succeeds. -/
def after {α : Type} (step : RunM α) (r : Runner) : Runner :=
  match step r with
  | .ok _ r' => r'
  | .error _ r' => r'

theorem after_bind {α β : Type} (x : RunM α) (f : α → RunM β) (r : Runner) :
    after (x >>= f) r = match x r with
      | .ok a r' => after (f a) r'
      | .error _ r' => r' := by
  show after (EStateM.bind x f) r = _
  unfold after EStateM.bind
  cases x r <;> rfl

/-- Work on the graph leaves the rest of the runner alone. -/
theorem report_onGraph {α : Type} (f : Update α) (r : Runner) :
    (after (onGraph f) r).report = r.report := by
  unfold after onGraph
  dsimp only
  cases f r.egraph <;> rfl

theorem size_runWithin (n : Nat) (r : Runner) :
    (after (runWithin n) r).report.iterations.size ≤ r.report.iterations.size + n := by
  induction n generalizing r with
  | zero => exact Nat.le_refl _
  | succ n ih =>
    rw [runWithin, after_bind]
    show (after (ite _ _ _) r).report.iterations.size ≤ _
    split
    · exact Nat.le_add_right _ _
    · rw [after_bind]
      have hg := report_onGraph
        (EGraph.saturateOnce r.rules r.limits.nodes r.report.iterations.size) r
      unfold after at hg
      split
      · next it r' h =>
        rw [h] at hg
        dsimp only at hg
        rw [after_bind]
        show (after (ite _ _ _) _).report.iterations.size ≤ _
        have hs : (r'.report.iterations.push it).size = r.report.iterations.size + 1 := by
          rw [Array.size_push, hg]
        split
        · exact Nat.le_trans (Nat.le_of_eq hs) (by omega)
        · refine Nat.le_trans (ih _) ?_
          show (r'.report.iterations.push it).size + n ≤ _
          omega
      · next e r' h =>
        rw [h] at hg
        dsimp only at hg
        rw [hg]
        exact Nat.le_add_right _ _

/-- A run ends with at most as many rounds as the limit, or as there were. -/
theorem size_run (r : Runner) :
    (after run r).report.iterations.size ≤
      max r.report.iterations.size r.limits.iterations := by
  have h := size_runWithin (r.limits.iterations - r.report.iterations.size) r
  rw [run, after_bind]
  show (after (_ >>= _) r).report.iterations.size ≤ _
  rw [after_bind]
  unfold after at h
  split
  · next reason r' hr =>
    rw [hr] at h
    dsimp only at h
    show r'.report.iterations.size ≤ _
    omega
  · next e r' hr =>
    rw [hr] at h
    dsimp only at h
    omega

end Runner

end EqSat
