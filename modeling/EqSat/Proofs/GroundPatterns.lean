import EqSat.Proofs.Operations
import EqSat.Proofs.Spelling

/-!
# Patterns without variables

A text in which no word starts with a sigil reads as a pattern exactly if it reads as a term, and
the pattern has no variables.  Building the pattern then adds the nodes that adding the term adds,
in the same order: both lead to the same class and leave the same graph behind.

    Pattern.ofSexpr_eq_ok_iff        what is read has no variables
    EGraph.addNodes_postOrder        a tree laid out is added like its pattern is built
-/

namespace EqSat

variable {analysis : Analysis} {g g' : EGraph} {id : ClassId} {s : Subst} {sigil source : String}
  {p : Pattern} {t : Term}

/-! ## Reading -/

/-- No atom starts with a sigil. -/
def Sexpr.Plain (s : Sexpr) : Prop := ∀ w ∈ s.atoms, Unmarked w

theorem Sexpr.Plain.of_mem {xs : List Sexpr} {x : Sexpr} (h : (list xs).Plain) (hx : x ∈ xs) :
    x.Plain := fun w hw => h w (mem_itemAtoms.2 ⟨x, hx, hw⟩)

theorem Sexpr.plain_of_read {s : Sexpr} (h : Sexpr.read source = .ok s)
    (hsource : ∀ w, .word w ∈ tokenize source → Unmarked w) : s.Plain := by
  intro w hw
  refine hsource w ?_
  rw [tokenize_eq_iff.2 (read_eq_ok_iff.1 h)]
  exact mem_tokensOnto s hw []

namespace Pattern

theorem vars_ofTree (u : Tree) : (ofTree u).vars = [] := by
  have hvars : ∀ names, (ofTree u).varsFrom names = names := by
    induction u with
    | leaf l => exact fun _ => rfl
    | unary op x ih => exact ih
    | binary op x y ihx ihy =>
      intro names
      rw [ofTree, varsFrom, ihx, ihy]
  exact hvars []

/-- What is read, if no word starts with a sigil, is the tree that is written. -/
theorem ofSexpr_eq_ok_iff {s : Sexpr} (hs : IsSigil sigil) (hplain : s.Plain) :
    ofSexpr sigil s = .ok p ↔ ∃ u, s.Spells u ∧ ofTree u = p := by
  constructor
  · intro h
    fun_induction ofSexpr sigil s generalizing p with
    | case1 word =>
      rw [ofWord_of_unmarked hs (hplain word (by simp [Sexpr.atoms]))] at h
      split at h
      · next l hl =>
        cases h
        exact ⟨.leaf l, .leaf hl, rfl⟩
      · cases h
    | case2 symbol x op hop ih =>
      obtain ⟨q, hq, h⟩ := exists_of_bind_eq_ok h
      cases h
      obtain ⟨u, hu, rfl⟩ := ih (hplain.of_mem (by simp)) hq
      exact ⟨.unary op u, .unary (Operator.lookup?_one.2 hop) hu, rfl⟩
    | case4 symbol x y op hop ihx ihy =>
      obtain ⟨q, hq, h⟩ := exists_of_bind_eq_ok h
      obtain ⟨r, hr, h⟩ := exists_of_bind_eq_ok h
      cases h
      obtain ⟨u, hu, rfl⟩ := ihx (hplain.of_mem (by simp)) hq
      obtain ⟨v, hv, rfl⟩ := ihy (hplain.of_mem (by simp)) hr
      exact ⟨.binary op u v, .binary (Operator.lookup?_two.2 hop) hu hv, rfl⟩
    | _ => cases h
  · rintro ⟨u, hu, rfl⟩
    induction hu with
    | @leaf w l hl =>
      rw [ofSexpr, ofWord_of_unmarked hs (hplain w (by simp [Sexpr.atoms])), hl]
      rfl
    | @unary w x op u hop _ ih =>
      rw [ofSexpr, Operator.lookup?_one.1 hop]
      dsimp only
      rw [ih (hplain.of_mem (by simp))]
      rfl
    | @binary w x y op u v hop _ _ ihx ihy =>
      rw [ofSexpr, Operator.lookup?_two.1 hop]
      dsimp only
      rw [ihx (hplain.of_mem (by simp)), ihy (hplain.of_mem (by simp))]
      rfl

theorem read_eq_ok_iff (hs : IsSigil sigil)
    (hsource : ∀ w, .word w ∈ Sexpr.tokenize source → Unmarked w) :
    read sigil source = .ok p ↔ ∃ u, Tree.read source = .ok u ∧ ofTree u = p := by
  unfold read Tree.read
  cases hread : Sexpr.read source with
  | error cause => simp
  | ok s =>
    dsimp only
    rw [ofSexpr_eq_ok_iff hs (Sexpr.plain_of_read hread hsource)]
    simp only [Sexpr.ofSexpr_eq_ok_iff]

end Pattern

/-! ## Building -/

namespace EGraph

/-- The class of the last node of a part, when other nodes have followed. -/
theorem getElem_of_back (ids : Array ClassId) {new : Array ClassId} (h : new.back? = some id)
    (later : Array ClassId) :
    (ids ++ new ++ later)[ids.size + new.size - 1]? = some id := by
  have hpos : 0 < new.size := by
    rw [Array.back?] at h
    have := (Array.getElem?_eq_some_iff.1 h).1
    omega
  rw [Array.getElem?_append_left (by rw [Array.size_append]; omega),
    Array.getElem?_append_right (by omega), ← h, Array.back?]
  congr 1
  omega

/-- **A tree laid out** is added like its pattern is built: the last of the classes noted for its
nodes is the one that building gives back. -/
theorem addNodes_postOrder (u : Tree) (h : (Pattern.ofTree u).build s g = .ok id g') :
    ∃ new : Array ClassId, new.size = u.size ∧ new.back? = some id ∧
      ∀ ids rest, addNodes (u.postOrder ids.size ++ rest) ids g =
        addNodes rest (ids ++ new) g' := by
  induction u generalizing g g' id with
  | leaf l =>
    refine ⟨#[id], rfl, rfl, fun ids rest => ?_⟩
    have hadd : add (.leaf l) g = .ok id g' := h
    exact addNodes_cons rfl hadd
  | unary op x ih =>
    obtain ⟨a, g₁, hx, hadd⟩ := bind_eq_ok h
    obtain ⟨new, hsize, hback, hnew⟩ := ih hx
    refine ⟨new.push id, by simp [Tree.size, hsize]; omega, by simp, fun ids rest => ?_⟩
    have hm : (Node.unary op (ids.size + x.size - 1)).mapM ((ids ++ new)[·]?) =
        some (.unary op a) := by
      have ha := getElem_of_back ids hback #[]
      rw [Array.append_empty, hsize] at ha
      simp [Node.mapM, ha]
    rw [Tree.postOrder, List.append_assoc, hnew, List.singleton_append, addNodes_cons hm hadd,
      Array.push_append]
  | binary op x y ihx ihy =>
    obtain ⟨a, g₁, hx, h⟩ := bind_eq_ok h
    obtain ⟨b, g₂, hy, hadd⟩ := bind_eq_ok h
    obtain ⟨newx, hsizex, hbackx, hnewx⟩ := ihx hx
    obtain ⟨newy, hsizey, hbacky, hnewy⟩ := ihy hy
    refine ⟨(newx ++ newy).push id, by simp [Tree.size, hsizex, hsizey]; omega, by simp,
      fun ids rest => ?_⟩
    have hm : (Node.binary op (ids.size + x.size - 1) (ids.size + x.size + y.size - 1)).mapM
        ((ids ++ newx ++ newy)[·]?) = some (.binary op a b) := by
      have ha := getElem_of_back ids hbackx newy
      have hb := getElem_of_back (ids ++ newx) hbacky #[]
      rw [hsizex] at ha
      rw [Array.append_empty, Array.size_append, hsizex, hsizey] at hb
      simp only [Node.mapM, ha, hb]
      rfl
    have hbase : ids.size + x.size = (ids ++ newx).size := by rw [Array.size_append, hsizex]
    rw [Tree.postOrder, List.append_assoc, List.append_assoc, hnewx, hbase, hnewy, ← hbase,
      List.singleton_append, addNodes_cons hm hadd, Array.push_append, Array.push_append,
      Array.append_assoc]

/-- **Building** the pattern of a tree and adding the tree laid out are the same. -/
theorem Reached.exists_build_addTerm (h : Reached analysis g) (u : Tree) :
    ∃ id g', (Pattern.ofTree u).build [] g = .ok id g' ∧
      addTerm (.ofTree u) g = .ok (some id) g' := by
  have hvars : ∀ x ∈ (Pattern.ofTree u).vars, Subst.Binds g [] x := by
    simp [Pattern.vars_ofTree]
  obtain ⟨id, g', hbuild, -, -, -, hid⟩ :=
    (lasting_reached analysis).exists_build (Pattern.ofTree u) h hvars
  obtain ⟨new, -, hback, hnew⟩ := addNodes_postOrder u hbuild
  have hrun : addNodes (Term.ofTree u).nodes.toList #[] g = .ok new g' := by
    have h0 := hnew #[] []
    rw [List.append_nil, Array.empty_append] at h0
    rw [Term.nodes_ofTree]
    exact h0
  refine ⟨id, g', hbuild, ?_⟩
  rw [addTerm_eq hrun, hback, Option.map_some, hid.2]

end EGraph

/-! ## Reading and building -/

/-- **A text without variables** reads as a pattern exactly if it reads as a term.  Building the
pattern and adding the term give the same class, and leave the same graph. -/
theorem Pattern.builds_read_term (hs : Pattern.IsSigil sigil)
    (hsource : ∀ w, .word w ∈ Sexpr.tokenize source → Unmarked w) :
    ((∃ p, Pattern.read sigil source = .ok p) ↔ ∃ t, Term.read source = .ok t) ∧
    ∀ p t, Pattern.read sigil source = .ok p → Term.read source = .ok t → p.vars = [] ∧
      ∀ analysis g, EGraph.Reached analysis g → ∃ id g', p.build [] g = .ok id g' ∧
        EGraph.addTerm t g = .ok (some id) g' := by
  have hpattern : ∀ p, Pattern.read sigil source = .ok p ↔
      ∃ u, Tree.read source = .ok u ∧ Pattern.ofTree u = p := fun p => read_eq_ok_iff hs hsource
  constructor
  · simp only [hpattern, Term.read_eq_ok_iff]
    constructor
    · rintro ⟨p, u, hu, -⟩
      exact ⟨_, u, hu, rfl⟩
    · rintro ⟨t, u, hu, -⟩
      exact ⟨_, u, hu, rfl⟩
  · intro p t hp ht
    obtain ⟨u, hu, rfl⟩ := (hpattern p).1 hp
    obtain ⟨v, hv, rfl⟩ := Term.read_eq_ok_iff.1 ht
    obtain rfl : u = v := Except.ok.inj (hu.symm.trans hv)
    exact ⟨vars_ofTree u, fun analysis g h => h.exists_build_addTerm u⟩

/-- A graph in which the variable is one. -/
def EGraph.unitVariable : EGraph :=
  left (union 0 1 (left (add (.leaf (.const (.int 1))) (left (add (.leaf (.var "x"))
    (empty .constantFolding))))))

/-- The sum is folded either way, as the graph knows the variable. -/
theorem Pattern.builds_read_sum :
    ∃ p t g', Pattern.read ":" "(+ x +01)" = .ok p ∧ Term.read "(+ x +01)" = .ok t ∧
      p.build [] EGraph.unitVariable = .ok 2 g' ∧
      EGraph.addTerm t EGraph.unitVariable = .ok (some 2) g' ∧
      g'.constantAt? 2 = some (.int 2) := by
  have hreached : EGraph.Reached .constantFolding EGraph.unitVariable := by
    refine .union (.add (.add .empty _ ?_) _ ?_) 0 1 (by decide +kernel) (by decide +kernel)
    · simp [Node.children]
    · simp [Node.children]
  have hsource : ∀ w, .word w ∈ Sexpr.tokenize "(+ x +01)" → Unmarked w := by
    have htokens : Sexpr.tokenize "(+ x +01)" =
        [.opening, .word "+", .word "x", .word "+01", .closing] := by decide +kernel
    have hwords : ∀ w ∈ ["+", "x", "+01"], Unmarked w := by decide
    intro w hw
    rw [htokens] at hw
    exact hwords w (by simpa using hw)
  have hsigil : IsSigil ":" := .inr rfl
  obtain ⟨hiff, hsame⟩ := builds_read_term hsigil hsource
  have hvalue : (Term.read "(+ x +01)").toOption.map (fun t =>
      (EStateM.run' (EGraph.addTerm t) EGraph.unitVariable,
        (left (EGraph.addTerm t EGraph.unitVariable)).constantAt? 2)) =
      some (some (some 2), some (.int 2)) := by decide +kernel
  obtain ⟨t, ht, hvalue⟩ := Option.map_eq_some_iff.1 hvalue
  have ht := eq_ok_of_toOption ht
  obtain ⟨p, hp⟩ := hiff.2 ⟨t, ht⟩
  obtain ⟨id, g', hbuild, hadd⟩ := (hsame p t hp ht).2 _ _ hreached
  delta EStateM.run' EStateM.run at hvalue
  rw [hadd] at hvalue
  obtain ⟨hid, hconst⟩ := Prod.mk.inj hvalue
  cases hid
  exact ⟨p, t, g', hp, ht, hbuild, hadd, hconst⟩

end EqSat
