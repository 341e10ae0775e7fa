import EqSat.Proofs.Classes
import EqSat.Proofs.Occurrences

/-!
# Searching a clean graph

In a clean graph a search gives the occurrences of a pattern, each of them once.  That an occurrence
is given comes from the matcher; that it is given once comes from how duplicates are left out, as
the classes of the substitution tell matches of one class apart.

    nodup_search              no match is given twice
    Operated.search_occurs    a search gives the occurrences, each of them once
-/

namespace EqSat

open EGraph

variable {g : EGraph} {analysis : Analysis} {p : Pattern} {m : Match} {s s' : Subst} {x : String}

/-! ## Substitutions as functions -/

namespace Subst

theorem lookup_of_mem {b : String × ClassId} (hn : s.names.Nodup) (hb : b ∈ s) :
    s.lookup b.1 = some b.2 := by
  induction s with
  | nil => cases hb
  | cons a s ih =>
    obtain ⟨ha, hs⟩ := List.nodup_cons.1 hn
    rcases List.mem_cons.1 hb with rfl | hb
    · exact List.lookup_cons_self
    · have hne : b.1 ≠ a.1 := fun he => ha (he ▸ List.mem_map_of_mem hb)
      rw [List.lookup_cons, beq_false_of_ne hne]
      exact ih hs hb

/-- The classes are those of the names, in order. -/
theorem map_get_names (hn : s.names.Nodup) : s.names.map s.get = s.map Prod.snd := by
  rw [names, List.map_map]
  exact List.map_congr_left fun b hb => get_eq (lookup_of_mem hn hb)

/-- Substitutions of the same variables are equal if they give each of them the same class. -/
theorem ext_of_names (hn : s.names.Nodup) (hnames : s'.names = s.names)
    (hget : ∀ x ∈ s.names, s'.get x = s.get x) : s' = s := by
  refine eq_of_names hnames ?_
  rw [← map_get_names hn, ← map_get_names (hnames ▸ hn), hnames]
  exact List.map_congr_left hget

end Subst

/-! ## Occurrences -/

/-- The pattern occurs in a class of the graph, under a substitution of its variables by classes as
they are called now: a variable is where it is bound, and any other pattern is where a node with its
head is listed over classes in which its children occur. -/
structure Pattern.Occurs (p : Pattern) (g : EGraph) (m : Match) : Prop where
  current : g.Current m.1
  names : m.2.names = p.vars
  canonical : ∀ b ∈ m.2, g.Current b.2
  witnessed : p.Over g.Lists m.2.get m.1

namespace Pattern

theorem names_of_mem_search (hm : m ∈ p.search g) : m.2.names = p.vars :=
  names_of_mem_matchesAt (Subst.mem_of_mem_distinct (mem_search.1 hm).2)

/-- A search gives no match twice. -/
theorem nodup_search (hs : g.Shape) : (p.search g).Nodup := by
  refine List.nodup_flatMap.2 ⟨fun c _ => ?_, ?_⟩
  · exact (Subst.nodup_distinct _).map fun s s' he => congrArg Prod.snd he
  · have hids : g.classList.Pairwise fun c c' => c.id ≠ c'.id :=
      List.pairwise_map.1 (nodup_map_id_classList hs)
    refine hids.imp fun hne m hm hm' => ?_
    obtain ⟨s, -, rfl⟩ := List.mem_map.1 hm
    obtain ⟨s', -, he⟩ := List.mem_map.1 hm'
    exact hne (congrArg Prod.fst he).symm

/-- What is found occurs. -/
theorem occurs_of_mem_search (h : g.Listing) (hg : g.Grounded) (hm : m ∈ p.search g) :
    p.Occurs g m := by
  have hnames := names_of_mem_search hm
  obtain ⟨hid, hroot, hover⟩ := over_of_mem_search h hm
  refine ⟨hid, hnames, fun b hb => ⟨?_, ?_⟩, hover⟩
  · have hinside := matchesAt_inside hg (s := []) (List.forall_mem_nil _) hid.1
      (Subst.mem_of_mem_distinct (mem_search.1 hm).2)
    exact hinside b hb
  · have hx : b.1 ∈ p.vars := hnames ▸ List.mem_map_of_mem hb
    have hget := Subst.get_eq (Subst.lookup_of_mem (hnames ▸ nodup_vars p) hb)
    exact hget ▸ hroot b.1 hx

/-- What occurs is found. -/
theorem Occurs.mem_search (ho : p.Occurs g m) (h : g.Listing) : m ∈ p.search g := by
  obtain ⟨m', hm', hid, hget⟩ := exists_mem_search h ho.current ho.witnessed
  have hs : m'.2 = m.2 := Subst.ext_of_names (ho.names ▸ nodup_vars p)
    ((names_of_mem_search hm').trans ho.names.symm) (ho.names ▸ hget)
  rwa [← Prod.ext hid hs]

end Pattern

/-! ## The graphs of operations -/

theorem EGraph.Orderly.listing_of_clean (h : Orderly analysis g) (hclean : g.clean = true) :
    g.Listing := by
  refine ⟨h.shape, fun id n hn => ?_⟩
  obtain ⟨c, hc, hmem⟩ := mem_nodesAt.1 hn
  exact (h.hashConsed_of_clean hclean).children _ c hc n hmem

/-- **A search** of a clean graph gives the occurrences of the pattern, each of them once, and
nothing else. -/
theorem Operated.search_occurs (h : Operated analysis g) (hclean : g.clean = true) (p : Pattern) :
    (p.search g).Nodup ∧ ∀ m, m ∈ p.search g ↔ p.Occurs g m := by
  have hg := h.reached.orderly
  have hlisting := hg.listing_of_clean hclean
  exact ⟨Pattern.nodup_search hg.shape, fun m =>
    ⟨Pattern.occurs_of_mem_search hlisting h.reached.backed.toGrounded,
      fun ho => ho.mem_search hlisting⟩⟩

/-- Two variables, a minus of each, and each times one; the minuses are joined, and the products, but
not the variables.  A minus and a product are added up. -/
def crossed : EGraph :=
  Operation.runAll [.add (.leaf (.var "x")), .add (.leaf (.var "y")), .add (.unary .minus 0),
    .add (.unary .minus 1), .add (.leaf (.const (.int 1))), .add (.binary .mul 0 4),
    .add (.binary .mul 1 4), .add (.binary .add 2 5), .union 2 3, .union 5 6, .rebuild]
    (empty .constantFolding)

/-- The minus of something and the same thing times one, added up. -/
def minusTimesOne : Pattern :=
  .binary .add (.unary .minus (.hole "a")) (.binary .mul (.hole "a") (.leaf (.const (.int 1))))

/-- The sum has a minus of either variable, and either variable times one, but the pattern asks for
the same one. -/
theorem search_occurs_crossed :
    Operated .constantFolding crossed ∧ crossed.clean = true ∧
      crossed.find 3 = 2 ∧ crossed.find 6 = 5 ∧ crossed.find 1 = 1 ∧
      minusTimesOne.search crossed = [(7, [("a", 0)]), (7, [("a", 1)])] ∧
      (minusTimesOne.search crossed).Nodup ∧
      ∀ m, m ∈ minusTimesOne.search crossed ↔ minusTimesOne.Occurs crossed m := by
  have h : Operated .constantFolding crossed := by
    refine Operated.empty.runAll ?_
    simp only [Operation.FitAll, Operation.Fits, Node.children]
    decide +kernel
  have hclean : crossed.clean = true := by decide +kernel
  exact ⟨h, hclean, by decide +kernel, by decide +kernel, by decide +kernel, by decide +kernel,
    h.search_occurs hclean minusTimesOne⟩

end EqSat
