import EqSat.EGraph.Update
import EqSat.Pattern
import Std.Data.TreeSet

/-!
# Matching patterns in an e-graph

A pattern matches a class under a substitution of classes for its variables: a variable
matches the class it stands for, and a node pattern matches if some node of the class has
its head and children that match.  Matches are listed in the order of the classes and of
the nodes in them.

Building goes the other way: it adds the nodes of a pattern whose variables are known.
-/

namespace EqSat

/-- Classes for variables, in the order in which the variables were met. -/
abbrev Subst := List (String × ClassId)

/-- A class where a pattern matches, and the substitution. -/
abbrev Match := ClassId × Subst

namespace Subst

/-- The class of a variable; patterns are only built with all variables known. -/
def get (s : Subst) (x : String) : ClassId := (s.lookup x).getD 0

/-- The list with later duplicates left out.  All of the substitutions name the same
variables in the same order, so that their classes tell them apart. -/
def distinct (ss : List Subst) : List Subst :=
  (ss.foldl (fun (seen, out) s =>
    let key := s.map Prod.snd
    if seen.contains key then (seen, out) else (seen.insert key, s :: out))
    ((∅ : Std.TreeSet (List ClassId)), [])).2.reverse

end Subst

namespace Pattern

/-- The substitutions extending `s` under which the pattern matches the class of `id`. -/
def matchesAt (g : EGraph) : Pattern → Subst → ClassId → List Subst
  | hole x, s, id =>
    match s.lookup x with
    | none => [s ++ [(x, g.find id)]]
    | some bound => if g.find bound = g.find id then [s] else []
  | leaf l, s, id =>
    (g.nodesAt id).flatMap fun
      | .leaf l' => if l' = l then [s] else []
      | _ => []
  | unary op p, s, id =>
    (g.nodesAt id).flatMap fun
      | .unary op' a => if op' = op then p.matchesAt g s a else []
      | _ => []
  | binary op p q, s, id =>
    (g.nodesAt id).flatMap fun
      | .binary op' a b => if op' = op then (p.matchesAt g s a).flatMap (q.matchesAt g · b) else []
      | _ => []

/-- All matches of a pattern, each of them once. -/
def search (g : EGraph) (p : Pattern) : List Match :=
  g.classList.flatMap fun c => (Subst.distinct (p.matchesAt g [] c.id)).map fun s => (c.id, s)

/-- Add the term that the pattern describes under `s`; gives its class. -/
def build (s : Subst) : Pattern → Update ClassId
  | hole x => do return (← get).find (s.get x)
  | leaf l => EGraph.add (.leaf l)
  | unary op p => do
    let a ← p.build s
    EGraph.add (.unary op a)
  | binary op p q => do
    let a ← p.build s
    let b ← q.build s
    EGraph.add (.binary op a b)

end Pattern

end EqSat
