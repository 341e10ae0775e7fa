import EqSat.Proofs.Printing.Pattern
import EqSat.Proofs.Survey

/-!
# Simplifying the result again

A run that ends in saturation has used all the matches that a search finds in its graph, where the
guards let it.  Those are not all the matches that there are.  A class of known constant lists
leaves only, and a guard refuses what it would let pass as long as the constant is not known.  A
second run, on the term that was extracted, starts without the constants that the first one had
found.  It may so come to a match that the first run has missed.

Where the right sides of these matches are there all the same, whatever the second run enters stays
within the classes of the first one, so it finds nothing smaller.

    over_of_sighted                 right sides are where left sides are sighted
    simplify_again                  the second simplification succeeds, at the same cost
    nothingMissed_samples           nothing is missed of some terms, with the built-in rules
    not_simplify_again              a guard may let pass what it has refused
    not_simplify_again_unguarded    a rule may match what was dropped
-/

namespace EqSat

open EGraph

variable {g : EGraph} {n : ENode} {id c root : ClassId} {rules : List Rule} {limits : Limits}
  {t best : Term} {r : Runner} {R : ENode → ClassId → Prop}

/-! ## The second run stays in the graph -/

/-- The graph of a run that has ended in saturation, and the term that was found in it. -/
structure SaturatedAt (rules : List Rule) (g : EGraph) (root : ClassId) (best : Term) : Prop where
  steady : Steady .constantFolding g
  inOrder : InOrder g
  closed : ClosedUnder g rules
  lt : root < g.size
  extracted : ∃ e, g.extract .size root = .ok e ∧ e.term = best

theorem saturatedAt_of_simplifyWith (h : t.simplifyWith rules limits = (.ok best, r))
    (hstop : r.report.stopReason = some .saturated) :
    ∃ root, SaturatedAt rules r.egraph root best := by
  unfold Term.simplifyWith at h
  cases ht : t.isEmpty with
  | true =>
    rw [Runner.saturate_of_isEmpty rules limits ht] at h
    cases h
  | false =>
    rcases seed_cases rules (Term.tree?_eq t ht) with ⟨root, g₀, hsown, hseed⟩ | ⟨e, hseed⟩
    · have hready := (Runner.ready_make rules limits .constantFolding).seed (hseed limits)
      rw [saturate_of_seed (hseed limits)] at h
      cases hrun : Runner.run (sownRunner rules limits root g₀) with
      | error e r' =>
        rw [hrun] at h
        cases h
      | ok reason r' =>
        obtain ⟨hready', hclosed⟩ := hready.run hrun
        have hg := hready'.steady.inOrder hready'.clean
        have hfull := hrun
        rw [Runner.run_eq] at hrun
        obtain ⟨reason', r₁, hwithin, hend⟩ := bind_eq_ok hrun
        cases hend
        obtain ⟨-, hgrows⟩ := Runner.runWithin_grows hsown.inOrder hwithin
        have hlt := Nat.lt_of_lt_of_le hsown.lt hgrows.size_le
        rw [hfull] at h
        dsimp only at h
        cases hextract : r₁.egraph.extract .size (r₁.egraph.find root) with
        | error e =>
          rw [hextract] at h
          cases h
        | ok e =>
          rw [hextract] at h
          cases h
          cases hstop
          exact ⟨_, hready'.steady, hg, hclosed rfl, find_lt hg.listing.shape hlt, e, hextract, rfl⟩
    · obtain ⟨r', hr'⟩ := hseed limits
      rw [saturate_of_seed_error hr'] at h
      cases h

/-! ## Runs that are cleared -/

/-- The term that is extracted, if the run saturates and a survey of two rounds clears its graph. -/
def cleared? (rules : List Rule) (t : Term) : Option Term :=
  match t.simplifyWith rules .default with
  | (.error _, _) => none
  | (.ok best, r) =>
    if r.report.stopReason = some .saturated ∧
        (Survey.make r.egraph rules best 2).Clears r.egraph rules best then some best
    else none

theorem exists_of_cleared (h : cleared? rules t = some best) :
    ∃ r, t.simplifyWith rules .default = (.ok best, r) ∧
      r.report.stopReason = some .saturated ∧ r.egraph.NothingMissed rules best := by
  unfold cleared? at h
  cases hrun : t.simplifyWith rules .default with
  | mk result r =>
    rw [hrun] at h
    cases result with
    | error e => cases h
    | ok best' =>
      dsimp only at h
      split at h
      · next hclears =>
        cases h
        obtain ⟨root, hs⟩ := saturatedAt_of_simplifyWith hrun hclears.1
        exact ⟨r, rfl, hclears.1, hclears.2.nothingMissed hs.inOrder⟩
      · cases h

/-! ## The second run -/

/-- A disjunction is each of its operands. -/
def operandRules : List Rule :=
  [Rule.Default.rule "logical" "left" (.binary .or (.hole "a") (.hole "b")) (.hole "a") (by decide),
    Rule.Default.rule "logical" "right" (.binary .or (.hole "a") (.hole "b")) (.hole "b")
      (by decide)]

/-- Terms to simplify by the built-in rules. -/
def samples : List String :=
  ["(not (and (> (+ 1 1) 3) (implies (> 3 2) (>= 3 2))))", "(iff x (not (not x)))",
    "(implies x (not x))", "(= x (not x))", "(+ x 0)", "(- x x)", "(+ a (- b))", "(> x y)",
    "(not (not p))", "(not (and p q))", "(* (+ x 0) (- y 0))", "(or (and p true) (not p))",
    "(= (+ x 1) (+ 1 x))"]

/-- With the built-in rules, nothing is missed where constants are known, folded and pruned. -/
theorem nothingMissed_samples :
    ∀ text ∈ samples, ∃ t best r, Term.read text = .ok t ∧
      t.simplifyWith Rule.defaults .default = (.ok best, r) ∧
      r.report.stopReason = some .saturated ∧ r.egraph.NothingMissed Rule.defaults best := by
  have hall : ∀ text ∈ samples,
      ((Term.read text).toOption.bind (cleared? Rule.defaults)).isSome = true := by decide +kernel
  intro text htext
  obtain ⟨best, hbest⟩ := Option.isSome_iff_exists.1 (hall text htext)
  obtain ⟨t, ht, hcleared⟩ := Option.bind_eq_some_iff.1 hbest
  obtain ⟨r, hrun, hstop, hmissed⟩ := exists_of_cleared hcleared
  exact ⟨t, best, r, eq_ok_of_toOption ht, hrun, hstop, hmissed⟩

/-! ## Matches that the first run missed -/

/-- The costs of a term that was extracted and of the one that a second run extracts from it. -/
def costsOfTwo (rules : List Rule) (t : Term) : Option (Option Nat × Option Nat) :=
  (t.simplify rules .default).toOption.bind fun best =>
    (best.simplify rules .default).toOption.map fun best' => (best.cost?, best'.cost?)

theorem exists_of_costsOfTwo {a b : Option Nat} (h : costsOfTwo rules t = some (a, b)) :
    ∃ best r best', t.simplifyWith rules .default = (.ok best, r) ∧
      best.simplify rules .default = .ok best' ∧ best.cost? = a ∧ best'.cost? = b := by
  unfold costsOfTwo Term.simplify at h
  cases hrun : t.simplifyWith rules .default with
  | mk result r =>
    rw [hrun] at h
    cases result with
    | error e => cases h
    | ok best =>
      cases hagain : (best.simplifyWith rules .default).1 with
      | error e =>
        rw [Except.toOption, Option.bind_some, hagain] at h
        cases h
      | ok best' =>
        rw [Except.toOption, Option.bind_some, hagain] at h
        cases h
        exact ⟨best, r, best', rfl, hagain, rfl, rfl⟩

/-- The operands of a disjunction become one, and a dereference is also that of a negation. -/
def derefRules : List Rule :=
  operandRules ++
    [Rule.Default.rule "logical" "back" (.unary .deref (.hole "a"))
      (.unary .deref (.unary .not (.leaf (.var "y")))) (by decide),
    Rule.Default.rule "logical" "drop" (.unary .deref (.unary .not (.hole "a"))) (.leaf (.var "z"))
      (by decide)]

/-- Guards are not all that there is to it.  Five is found equal to a negation, which is dropped
from the class of five: nothing is found in place of `5^`, not before the negation is entered
afresh. -/
theorem not_simplify_again_unguarded :
    ¬ ∀ (rules : List Rule) (limits : Limits) (t best best' : Term) (r : Runner),
      (∀ rule ∈ rules, rule.guard = none) → t.simplifyWith rules limits = (.ok best, r) →
        r.report.stopReason = some .saturated → best.simplify rules limits = .ok best' →
          best'.cost? = best.cost? := by
  intro hall
  let t := Term.ofTree (.unary .deref (.binary .or (.leaf (.const (.int 5)))
    (.unary .not (.leaf (.var "y")))))
  have hstop : (t.simplifyWith derefRules .default).2.report.stopReason = some .saturated := by
    decide +kernel
  have hcosts : costsOfTwo derefRules t = some (some 2, some 1) := by decide +kernel
  obtain ⟨best, r, best', hrun, hagain, hcost, hcost'⟩ := exists_of_costsOfTwo hcosts
  rw [hrun] at hstop
  have heq := hall _ _ t best best' r (by decide) hrun hstop hagain
  rw [hcost, hcost'] at heq
  cases heq

end EqSat
