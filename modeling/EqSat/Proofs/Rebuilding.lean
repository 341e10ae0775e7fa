import EqSat.Proofs.Reading
import EqSat.Proofs.Search

/-!
# Building what has been matched

A search walks the lists of the classes, and building asks the memo.  In a clean graph the two
agree: a listed node is found in the class that lists it.  So a pattern that occurs in a class is
found there node by node, and building it under the substitution of the match comes back to the
class and leaves the graph as it was.

    Occurs.present           an occurrence is found, node by node
    Operated.build_match     building a match gives its class and changes nothing
-/

namespace EqSat

open EGraph

variable {g : EGraph} {analysis : Analysis} {p : Pattern} {m : Match} {n : ENode} {id : ClassId}

/-- In a clean graph the memo finds what the classes list. -/
theorem EGraph.HashConsed.lookup_of_lists (h : g.HashConsed) (hn : g.Lists n id) :
    g.lookup n = some (g.find id) := by
  obtain ⟨c, hc, hmem⟩ := mem_nodesAt.1 hn
  exact h.lookup _ c n hc hmem

namespace Pattern

/-- What occurs in the lists is found, node by node. -/
theorem Occurs.present (ho : p.Occurs g m) (hs : g.Shape) (h : g.HashConsed) :
    p.Present g m.2 (g.find m.1) := by
  refine ho.witnessed.map (f := g.find) fun n c hn => ?_
  have hfound : g.lookup (g.canonicalize n) = some (g.find c) := by
    rw [lookup_canonicalize hs]
    exact h.lookup_of_lists hn
  exact hfound

/-- An occurrence gives every variable a class of the graph. -/
theorem Occurs.binds (ho : p.Occurs g m) : ∀ x ∈ p.vars, m.2.Binds g x := by
  have hinside : m.2.Inside g := fun b hb => (ho.canonical b hb).1
  exact fun x hx => hinside.binds (ho.names ▸ hx)

end Pattern

/-- **Building a match.**  Whatever a search of a clean graph finds binds all variables of the
pattern, and the pattern, built under it, is the class of the match.  The graph stays as it was. -/
theorem Operated.build_match (h : Operated analysis g) (hclean : g.clean = true)
    (hm : m ∈ p.search g) :
    (∀ x ∈ p.vars, m.2.Binds g x) ∧ p.build m.2 g = .ok (g.find m.1) g := by
  have hg := h.reached.orderly
  have ho := Pattern.occurs_of_mem_search (hg.listing_of_clean hclean)
    h.reached.backed.toGrounded hm
  exact ⟨ho.binds, build_of_present (ho.present hg.shape (hg.hashConsed_of_clean hclean))⟩

/-- The minus of a variable and another variable are added up.  Then the first is found to be equal
to a third one, which has a minus as well, and the other to be one. -/
def mended : EGraph :=
  Operation.runAll [.add (.leaf (.var "x")), .add (.leaf (.var "y")), .add (.unary .minus 0),
    .add (.unary .minus 1), .add (.leaf (.var "z")), .add (.binary .add 3 4),
    .add (.unary .plus 4), .add (.leaf (.const (.int 1))), .union 0 1, .union 4 7, .rebuild]
    (empty .constantFolding)

/-- The minus of something and one, added up. -/
def minusPlusOne : Pattern :=
  .binary .add (.unary .minus (.hole "a")) (.leaf (.const (.int 1)))

/-- The sum is found, though its minus was entered over a variable that has since lost its class,
and its one was a variable.  Building it gives its class. -/
theorem build_match_mended :
    Operated .constantFolding mended ∧ mended.clean = true ∧
      mended.find 1 = 0 ∧ mended.find 2 = 3 ∧ mended.find 6 = 4 ∧
      mended.nodesAt 4 = [.leaf (.var "z"), .leaf (.const (.int 1))] ∧
      (5, [("a", 0)]) ∈ minusPlusOne.search mended ∧
      minusPlusOne.build [("a", 0)] mended = .ok 5 mended := by
  have h : Operated .constantFolding mended := by
    refine Operated.empty.runAll ?_
    simp only [Operation.FitAll, Operation.Fits, Node.children]
    decide +kernel
  have hclean : mended.clean = true := by decide +kernel
  have hm : (5, [("a", 0)]) ∈ minusPlusOne.search mended := by decide +kernel
  have hfind : mended.find 5 = 5 := by decide +kernel
  have hbuild := (h.build_match hclean hm).2
  rw [hfind] at hbuild
  exact ⟨h, hclean, by decide +kernel, by decide +kernel, by decide +kernel, by decide +kernel, hm,
    hbuild⟩

end EqSat
