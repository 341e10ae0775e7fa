import EqSat.Rule.Listing

/-!
# The built-in rules

Four groups of equations: arithmetic, the unary operators, the relations, and the
connectives.
-/

namespace EqSat.Rule.Default

/-! ## Words for writing rules -/

def x : Pattern := .hole "x"
def y : Pattern := .hole "y"
def z : Pattern := .hole "z"

def int (n : Int) : Pattern := .leaf (.const (.int n))
def bool (b : Bool) : Pattern := .leaf (.const (.bool b))

def neg (p : Pattern) : Pattern := .unary .minus p
def pos (p : Pattern) : Pattern := .unary .plus p
def not (p : Pattern) : Pattern := .unary .not p

def add (p q : Pattern) : Pattern := .binary .add p q
def sub (p q : Pattern) : Pattern := .binary .sub p q
def mul (p q : Pattern) : Pattern := .binary .mul p q
def div (p q : Pattern) : Pattern := .binary .div p q
def intDiv (p q : Pattern) : Pattern := .binary .intDiv p q
def mod (p q : Pattern) : Pattern := .binary .mod p q
def and (p q : Pattern) : Pattern := .binary .and p q
def or (p q : Pattern) : Pattern := .binary .or p q
def implies (p q : Pattern) : Pattern := .binary .implies p q
def iff (p q : Pattern) : Pattern := .binary .iff p q
def eq (p q : Pattern) : Pattern := .binary .eq p q
def ne (p q : Pattern) : Pattern := .binary .ne p q
def lt (p q : Pattern) : Pattern := .binary .lt p q
def le (p q : Pattern) : Pattern := .binary .le p q
def gt (p q : Pattern) : Pattern := .binary .gt p q
def ge (p q : Pattern) : Pattern := .binary .ge p q

/-- A rule of the group `group`. -/
def rule (group name : String) (lhs rhs : Pattern)
    (bound : ∀ v ∈ rhs.vars, v ∈ lhs.vars) : Rule where
  name := name
  lhs := lhs
  rhs := rhs
  guard := none
  description := none
  tags := [group]
  rhs_bound := bound
  guard_bound := by simp

/-- A rule that holds unless `x` is zero. -/
def unlessZero (group name : String) (lhs rhs : Pattern)
    (bound : ∀ v ∈ rhs.vars, v ∈ lhs.vars) (bound_x : "x" ∈ lhs.vars) : Rule where
  name := name
  lhs := lhs
  rhs := rhs
  guard := some ⟨.isNotZero, "x"⟩
  description := none
  tags := [group]
  rhs_bound := bound
  guard_bound := by simpa using bound_x

/-! ## The groups -/

def arithmetic : List Rule := [
  rule "arithmetic" "commute-add" (add x y) (add y x) (by decide),
  rule "arithmetic" "commute-mul" (mul x y) (mul y x) (by decide),
  rule "arithmetic" "add-0" (add x (int 0)) x (by decide),
  rule "arithmetic" "sub-0" (sub x (int 0)) x (by decide),
  rule "arithmetic" "mul-1" (mul x (int 1)) x (by decide),
  rule "arithmetic" "mul-0" (mul x (int 0)) (int 0) (by decide),
  rule "arithmetic" "sub-reflexive" (sub x x) (int 0) (by decide),
  unlessZero "arithmetic" "div-reflexive" (div x x) (int 1) (by decide) (by decide),
  unlessZero "arithmetic" "int-div-reflexive" (intDiv x x) (int 1) (by decide) (by decide),
  rule "arithmetic" "mod-reflexive" (mod x x) (int 0) (by decide),
  rule "arithmetic" "add-minus" (add x (neg y)) (sub x y) (by decide),
  rule "arithmetic" "sub-minus" (sub (int 0) x) (neg x) (by decide)]

def unary : List Rule := [
  rule "unary" "minus-intro" (mul x (int (-1))) (neg x) (by decide),
  rule "unary" "plus-intro" x (pos x) (by decide),
  rule "unary" "minus-eliminate" (neg x) (mul x (int (-1))) (by decide),
  rule "unary" "plus-eliminate" (pos x) x (by decide)]

def relational : List Rule := [
  rule "relational" "gt-lt" (gt x y) (lt y x) (by decide),
  rule "relational" "ge-le" (ge x y) (le y x) (by decide),
  rule "relational" "neq-sym" (ne x y) (ne y x) (by decide),
  rule "relational" "leq-reflexive" (le x x) (bool true) (by decide),
  rule "relational" "neq-reflexive" (ne x x) (bool false) (by decide),
  rule "relational" "lt-reflexive" (lt x x) (bool false) (by decide),
  rule "relational" "eq-reflexive" (eq x x) (bool true) (by decide),
  rule "relational" "eq-symmetric" (eq x y) (eq y x) (by decide),
  rule "relational" "eq-transitive" (and (eq x y) (eq y z)) (eq x z) (by decide),
  rule "relational" "eq-not" (eq x (not y)) (ne x y) (by decide),
  rule "relational" "eq-true" (eq x (bool true)) x (by decide),
  rule "relational" "eq-false" (eq x (bool false)) (not x) (by decide)]

def boolean : List Rule := [
  rule "boolean" "or-false" (or x (bool false)) x (by decide),
  rule "boolean" "or-reflexive" (or x x) x (by decide),
  rule "boolean" "or-true" (or x (bool true)) (bool true) (by decide),
  rule "boolean" "or-commute" (or x y) (or y x) (by decide),
  rule "boolean" "or-saturate" (or x (not x)) (bool true) (by decide),
  rule "boolean" "and-true" (and x (bool true)) x (by decide),
  rule "boolean" "and-reflexive" (and x x) x (by decide),
  rule "boolean" "and-false" (and x (bool false)) (bool false) (by decide),
  rule "boolean" "and-commute" (and x y) (and y x) (by decide),
  rule "boolean" "and-saturate" (and x (not x)) (bool false) (by decide),
  rule "boolean" "not-true" (not (bool true)) (bool false) (by decide),
  rule "boolean" "not-false" (not (bool false)) (bool true) (by decide),
  rule "boolean" "not-not" (not (not x)) x (by decide),
  rule "boolean" "de-morgan-and" (not (and x y)) (or (not x) (not y)) (by decide),
  rule "boolean" "de-morgan-or" (not (or x y)) (and (not x) (not y)) (by decide),
  rule "boolean" "implies-definition" (implies x y) (or (not x) y) (by decide),
  rule "boolean" "implies-reflexive" (implies x x) (bool true) (by decide),
  rule "boolean" "implies-antisymmetric" (and (implies x y) (implies y x)) (eq x y) (by decide),
  rule "boolean" "implies-transitive" (and (implies x y) (implies y z)) (implies x z) (by decide),
  rule "boolean" "iff-definition" (iff x y) (eq x y) (by decide)]

end EqSat.Rule.Default

namespace EqSat.Rule

/-- The built-in rules. -/
def defaults : List Rule :=
  Default.arithmetic ++ Default.unary ++ Default.relational ++ Default.boolean

/-- The rules of a list that belong to one of the groups. -/
def inGroups (groups : List String) (rs : List Rule) : List Rule :=
  rs.filter fun r => r.tags.any (· ∈ groups)

/-- The built-in rules, or those of them that belong to one of the groups. -/
def defaultsIn : Option (List String) → List Rule
  | none => defaults
  | some groups => inGroups groups defaults

end EqSat.Rule
