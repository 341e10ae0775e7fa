import EqSat.Extraction
import EqSat.Rule.Default
import EqSat.Runner

/-!
# Simplification

To simplify a term, saturate an e-graph that is seeded with it and extract a cheapest term
of the seed's class.
-/

namespace EqSat

/-- Why a term cannot be simplified. -/
inductive SimplifyError where
  | term (cause : TermError)
  | noTerm (cause : EmptyTermError)
  | conflict (cause : Conflict)
  | extract (cause : ExtractError)
deriving DecidableEq, Repr

def SimplifyError.message : SimplifyError → String
  | term cause => cause.message
  | noTerm cause => cause.message
  | conflict cause => cause.message
  | extract cause => cause.message

/-- Seed a runner with a term and run it.  Gives the class that the seed's root is in at the
end, if the term has a root. -/
def Runner.saturate (t : Term) : RunM (Option ClassId) := do
  match ← seed t with
  | none => return none
  | some root =>
    let _ ← run
    return some ((← get).egraph.find root)

/-- Saturate with constant folding: the runner at the end, and the class of the seed. -/
def saturate (rules : List Rule) (limits : Limits) (t : Term) :
    Except SimplifyError ClassId × Runner :=
  match Runner.saturate t (.make rules limits .constantFolding) with
  | .ok (some root) r => (.ok root, r)
  | .ok none r => (.error (.noTerm .nothingToAdd), r)
  | .error e r => (.error (.conflict e), r)

namespace Term

/-- The smallest term that the rules show equal to `t`, and the runner that found it. -/
def simplifyWith (rules : List Rule) (limits : Limits) (t : Term) :
    Except SimplifyError Term × Runner :=
  match EqSat.saturate rules limits t with
  | (.error e, r) => (.error e, r)
  | (.ok root, r) =>
    (match r.egraph.extract .size root with
      | .ok best => .ok best.term
      | .error e => .error (.extract e), r)

def simplify (rules : List Rule) (limits : Limits) (t : Term) : Except SimplifyError Term :=
  (t.simplifyWith rules limits).1

end Term

/-- Simplify an expression; the information at its leaves is dropped. -/
def Expr.simplify {μ : Type} (rules : List Rule) (limits : Limits) (e : Expr μ) :
    Except SimplifyError (Expr Unit) := do
  let best ← (Term.ofExpr e).simplify rules limits
  match best.tree? with
  | some t => .ok t.toExpr
  | none => .error (.noTerm .noRoot)

/-- Simplify the term that a text spells. -/
def simplifyText (rules : List Rule) (limits : Limits) (source : String) :
    Except SimplifyError String := do
  let t ← (Term.read source).mapError .term
  let best ← t.simplify rules limits
  .ok best.text

end EqSat
