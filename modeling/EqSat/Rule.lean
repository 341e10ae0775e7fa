import EqSat.Pattern.Matching

/-!
# Rules

A rule says that a term matching its left side equals the right side under the same
substitution, if the guard lets the match pass.  By construction the right side and the
guard use no variable that the left side does not bind.
-/

namespace EqSat

/-- A side condition on a class. -/
inductive Condition where
  | isNotZero
deriving DecidableEq, Repr

namespace Condition

def name : Condition → String
  | isNotZero => "is-not-zero"

def ofName? (s : String) : Option Condition := [isNotZero].find? (·.name == s)

/-- A class is possibly not zero unless it is known to be. -/
def holds (g : EGraph) (id : ClassId) : Condition → Bool
  | isNotZero => match g.constantAt? id with
    | some c => !c.isZero
    | none => true

end Condition

/-- A condition on one variable of a rule. -/
structure Guard where
  condition : Condition
  var : String
deriving DecidableEq, Repr

namespace Guard

def text (guard : Guard) : String :=
  "(" ++ guard.condition.name ++ " " ++ Pattern.buildSigil ++ guard.var ++ ")"

def passes (g : EGraph) (s : Subst) (guard : Guard) : Bool :=
  guard.condition.holds g (s.get guard.var)

end Guard

/-- A named equation, used from left to right. -/
structure Rule where
  name : String
  lhs : Pattern
  rhs : Pattern
  guard : Option Guard
  description : Option String
  tags : List String
  rhs_bound : ∀ x ∈ rhs.vars, x ∈ lhs.vars
  guard_bound : ∀ x ∈ guard.map Guard.var, x ∈ lhs.vars
deriving DecidableEq

/-- A rule uses a variable that its left side does not bind. -/
inductive UnboundError where
  | rhs (rule var : String)
  | guard (rule var : String)
deriving DecidableEq, Repr

def UnboundError.message : UnboundError → String
  | rhs rule var => rule ++ ": right-hand side uses unbound variable " ++ Text.quoted var
  | guard rule var => rule ++ ": guard uses unbound variable " ++ Text.quoted var

namespace Rule

/-- Make a rule without tags, or name the first variable that is not bound. -/
def make (name : String) (lhs rhs : Pattern) (guard : Option Guard)
    (description : Option String) : Except UnboundError Rule :=
  match hr : rhs.vars.find? (· ∉ lhs.vars) with
  | some x => .error (.rhs name x)
  | none =>
    match hg : (guard.map Guard.var).filter (· ∉ lhs.vars) with
    | some x => .error (.guard name x)
    | none => .ok ⟨name, lhs, rhs, guard, description, [],
        fun x hx => by simpa using List.find?_eq_none.1 hr x hx,
        fun x hx => by
          rw [Option.filter_eq_none_iff] at hg
          simpa using hg x hx⟩

/-- The equation: both sides, and the guard if there is one. -/
def text (r : Rule) : String :=
  let sides := r.lhs.text Pattern.matchSigil ++ " => " ++ r.rhs.text Pattern.buildSigil
  match r.guard with
  | some guard => sides ++ " when " ++ guard.text
  | none => sides

/-- The rule as a record, in listings. -/
def record (r : Rule) : String :=
  "Rewrite(" ++ Text.quoted r.name ++ ", " ++ Text.quoted r.text ++ ")"

/-- The matches of the left side. -/
def search (g : EGraph) (r : Rule) : List Match := r.lhs.search g

/-- Apply the rule to one match; tells whether that joined two classes.  The guard looks
at the graph as it is at that moment. -/
def applyMatch (r : Rule) (m : Match) : Update Bool := do
  let g ← get
  if r.guard.all (·.passes g m.2) then
    let built ← r.rhs.build m.2
    EGraph.union m.1 built
  else return false

/-- Apply the rule to each match in order, `joined` classes having been joined before;
gives the number of classes joined. -/
def applyFrom (r : Rule) : List Match → Nat → Update Nat
  | [], joined => return joined
  | m :: ms, joined => do
    let changed ← r.applyMatch m
    r.applyFrom ms (if changed then joined + 1 else joined)

/-- Apply the rule to each match in order; gives the number of classes joined. -/
def applyAll (r : Rule) (ms : List Match) : Update Nat := r.applyFrom ms 0

end Rule

end EqSat
