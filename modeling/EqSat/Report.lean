import EqSat.Text.Quoted

/-!
# Reports of a run

A run is a sequence of rounds.  For every round the report counts the matches of each rule,
the classes it joined, and the size of the graph afterwards.  Counts stand in the order in
which their names were first met.

    (t.count name n).total = t.total + n        (total_count)
-/

namespace EqSat

/-- Numbers by name, in the order in which the names were entered. -/
abbrev Tally := List (String × Nat)

namespace Tally

/-- Change the number at a name, or enter the name with what `f` makes of nothing. -/
def update (name : String) (f : Option Nat → Nat) : Tally → Tally
  | [] => [(name, f none)]
  | (key, n) :: rest =>
    if key = name then (key, f (some n)) :: rest else (key, n) :: update name f rest

/-- Put a number at a name; a name that is present keeps its place. -/
def put (t : Tally) (name : String) (n : Nat) : Tally := t.update name fun _ => n

/-- Add to the number at a name. -/
def count (t : Tally) (name : String) (n : Nat) : Tally := t.update name fun old => old.getD 0 + n

def total : Tally → Nat
  | [] => 0
  | (_, n) :: rest => n + total rest

theorem total_count (t : Tally) (name : String) (n : Nat) :
    (t.count name n).total = t.total + n := by
  induction t with
  | nil => simp [count, update, total]
  | cons entry rest ih =>
    obtain ⟨key, m⟩ := entry
    simp only [count] at ih
    by_cases h : key = name
    · simp only [count, update, h, if_true, total, Option.getD_some]
      omega
    · simp only [count, update, h, if_false, total, ih]
      omega

end Tally

/-- One round of searching, applying and rebuilding.

`found` counts matches and `applied` the classes joined, by rule; rules without any are left
out.  `saturated` tells that the round changed nothing. -/
structure Iteration where
  index : Nat
  found : Tally
  applied : Tally
  rebuildUnions : Nat
  nodes : Nat
  classes : Nat
  saturated : Bool
deriving DecidableEq, Repr

namespace Iteration

/-- All classes joined in the round. -/
def unions (it : Iteration) : Nat := it.applied.total + it.rebuildUnions

def record (it : Iteration) : String :=
  "Iteration(" ++ toString it.index ++ ": " ++ toString it.found.total ++ " matches, " ++
    toString it.unions ++ " unions, " ++ toString it.nodes ++ " nodes, " ++
    toString it.classes ++ " classes)"

/-- The round as a line of the report. -/
def line (it : Iteration) : String :=
  let applied := ", ".intercalate (it.applied.map fun (name, n) => name ++ " x" ++ toString n)
  "  " ++ toString it.index ++ ". " ++ toString it.nodes ++ " nodes, " ++ toString it.classes ++
    " classes: " ++ if applied.isEmpty then "(nothing applied)" else applied

end Iteration

/-- Why a run ended. -/
inductive StopReason where
  | saturated
  | iterationLimit
  | nodeLimit
deriving DecidableEq, Repr

def StopReason.text : StopReason → String
  | saturated => "saturated"
  | iterationLimit => "iteration limit"
  | nodeLimit => "node limit"

/-- What happened so far, and why the last run ended. -/
structure Report where
  iterations : Array Iteration
  stopReason : Option StopReason
deriving DecidableEq, Repr

namespace Report

def empty : Report := ⟨#[], none⟩

def saturated (r : Report) : Bool := r.stopReason == some .saturated

/-- The classes that each rule joined over all rounds. -/
def ruleCounts (r : Report) : Tally :=
  r.iterations.foldl (fun t it => it.applied.foldl (fun t (name, n) => t.count name n) t) []

/-- The rules that changed the graph, in the order of their first use. -/
def rulesApplied (r : Report) : List String := r.ruleCounts.map Prod.fst

def unions (r : Report) : Nat := r.iterations.foldl (fun n it => n + it.unions) 0

def summary (r : Report) : String :=
  match r.iterations.back? with
  | none => "No iterations run"
  | some last =>
    (r.stopReason.map StopReason.text).getD "None" ++ " after " ++ toString r.iterations.size ++
      " iterations: " ++ toString last.nodes ++ " nodes in " ++ toString last.classes ++
      " classes, " ++ toString r.unions ++ " unions"

/-- The summary, then a line for every round. -/
def lines (r : Report) : List String := r.summary :: r.iterations.toList.map Iteration.line

def text (r : Report) : String := "\n".intercalate r.lines

def record (r : Report) : String := "RunReport(" ++ Text.quoted r.summary ++ ")"

end Report

end EqSat
