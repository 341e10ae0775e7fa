import EqSat.Proofs.AnyRules
import EqSat.Proofs.Operations

/-!
# Added terms are remembered

A term that has been added is found from then on in the class that it was given, whatever is added,
joined and rebuilt later.  Folding may drop its nodes from their classes, and joins may make them
nodes over other classes: each of them still stands where it was put, and in a rebuilt graph the
memo finds all nodes that stand.  A term that is found can be added again, and nothing changes.

    addTerm_of_lookupTerm    a term that is found is added without a change
    Later.carries            what stands in a graph stands in later ones
    Later.remembers          an added term is found after every rebuild
    not_remembers_parted     in another class, it may be, if a rebuild has failed before
-/

namespace EqSat

open EGraph

variable {analysis : Analysis} {g g' : EGraph} {o : Origin Unit} {t : Term} {id : ClassId}
  {n : ENode}

/-! ## Terms that are found -/

theorem add_of_lookup (h : g.lookup n = some id) : add n g = .ok id g := by
  obtain ⟨j, hj, rfl⟩ := Option.map_eq_some_iff.1 h
  rw [add_eq, hj]

theorem addNodes_of_lookupNodes {ns : List (Node Nat)} {ids ids' : Array ClassId}
    (h : g.lookupNodes ns ids = some ids') : addNodes ns ids g = .ok ids' g := by
  induction ns generalizing ids with
  | nil =>
    cases h
    rfl
  | cons n ns ih =>
    obtain ⟨m, hm, h⟩ := Option.bind_eq_some_iff.1 h
    obtain ⟨id, hid, h⟩ := Option.bind_eq_some_iff.1 h
    rw [addNodes_cons hm (add_of_lookup hid)]
    exact ih h

/-- Adding a term that is found changes nothing. -/
theorem addTerm_of_lookupTerm (h : g.lookupTerm t = some id) :
    addTerm t g = .ok (some (g.find id)) g := by
  obtain ⟨ids, hids, hlast⟩ := Option.bind_eq_some_iff.1 h
  rw [addTerm_eq (addNodes_of_lookupNodes hids), hlast, Option.map_some]

/-- Nodes that are found one after the other are found together. -/
theorem lookupNodes_eq {ns : List (Node Nat)} (cls : Nat → ClassId)
    (hchild : ∀ (i : Nat) (n : Node Nat), ns[i]? = some n → ∀ c ∈ n.children, c < i)
    (hfound : ∀ (i : Nat) (n : Node Nat), ns[i]? = some n → g.lookup (n.map cls) = some (cls i))
    (todo : List (Node Nat)) (ids : Array ClassId)
    (hids : ∀ i, i < ids.size → ids[i]? = some (cls i)) (htodo : todo = ns.drop ids.size)
    (hsize : ids.size ≤ ns.length) :
    ∃ ids', g.lookupNodes todo ids = some ids' ∧ ids'.size = ns.length ∧
      ∀ i, i < ids'.size → ids'[i]? = some (cls i) := by
  induction todo generalizing ids with
  | nil =>
    have hlen := congrArg List.length htodo
    rw [List.length_nil, List.length_drop] at hlen
    exact ⟨ids, rfl, by omega, hids⟩
  | cons n todo ih =>
    obtain ⟨hn, hrest⟩ := getElem_of_cons_eq_drop htodo
    have hlt : ids.size < ns.length := (List.getElem?_eq_some_iff.1 hn).1
    have hmap : n.mapM (ids[·]?) = some (n.map cls) :=
      Node.mapM_eq_some_map fun c hc => hids c (hchild _ n hn c hc)
    have hnext : g.lookupNodes (n :: todo) ids = g.lookupNodes todo (ids.push (cls ids.size)) := by
      show (n.mapM (ids[·]?)).bind (fun m => (g.lookup m).bind fun id =>
        g.lookupNodes todo (ids.push id)) = _
      rw [hmap, Option.bind_some, hfound _ n hn, Option.bind_some]
    rw [hnext]
    refine ih _ ?_ (by rw [Array.size_push, hrest]) (by rw [Array.size_push]; exact hlt)
    intro i hi
    rw [Array.getElem?_push]
    rw [Array.size_push] at hi
    split
    · next heq => rw [heq]
    · exact hids i (by omega)

/-! ## What stands -/

/-- The graph is in order, and what stood in `g` stands in it. -/
def Carries (analysis : Analysis) (g : EGraph) (o : Origin Unit) (g' : EGraph) : Prop :=
  ∃ o', Valid (anyMeaning analysis) g' o' ∧ Extends (fun _ => True) g o g' o'

theorem lasting_carries (analysis : Analysis) (g : EGraph) (o : Origin Unit) :
    Lasting analysis fun g' => Reached analysis g' ∧ Carries analysis g o g' where
  reached := And.left
  add := by
    rintro g₁ n ⟨hr, o₁, hv, hext⟩ hn
    refine ⟨hr.add n hn, ?_⟩
    obtain ⟨id, g₂, o₂, hrun, ha⟩ := add_spec hv hn (d := ()) trivial
    rw [hrun]
    exact ⟨o₂, ha.valid, hext.trans (ha.extended.mono fun _ _ => trivial)⟩
  union := by
    rintro g₁ a b ⟨hr, o₁, hv, hext⟩ ha hb
    refine ⟨hr.union a b ha hb, ?_⟩
    rcases union_spec hv.toCore hv.settled (hv.known.upTo a b) ha hb rfl with
      ⟨g₂, o₂, hrun, hu⟩ | ⟨e, hrun, -⟩
    · rw [hrun]
      exact ⟨o₂, hu.valid, hext.trans (hu.extended _)⟩
    · rw [hrun]
      exact ⟨o₁, hv, hext⟩

/-- The nodes of a term that is added stand in the classes that they are given. -/
theorem addTerm_standing (hv : Valid (anyMeaning analysis) g o) (ht : t.isEmpty = false) :
    ∃ ids g' o', addTerm t g = .ok (some (g'.find (ids.getD (t.size - 1) 0))) g' ∧
      Valid (anyMeaning analysis) g' o' ∧ ids.size = t.size ∧ Standing g' o' t.nodes.toList ids := by
  have hstep : ∀ (ids : Array ClassId) n g,
      (∃ o, Valid (anyMeaning analysis) g o ∧ (∀ id ∈ ids, id < g.size) ∧
        Standing g o t.nodes.toList ids) → t.nodes.toList[ids.size]? = some n →
      ∃ id g', add (n.map fun i => ids.getD i 0) g = .ok id g' ∧
        ∃ o', Valid (anyMeaning analysis) g' o' ∧ (∀ j ∈ ids.push id, j < g'.size) ∧
          Standing g' o' t.nodes.toList (ids.push id) := by
    rintro ids n g ⟨o, hv, hids, hstanding⟩ hn
    have hchild : ∀ a ∈ (n.map fun i => ids.getD i 0).children, a < g.size := by
      refine Node.forall_mem_children_map.2 fun i hi => hids _ ?_
      have hlt := Term.lt_of_mem_children_toList _ n hn i hi
      rw [Array.getD_eq_getD_getElem?, Array.getElem?_eq_getElem hlt]
      exact Array.getElem_mem hlt
    obtain ⟨id, g', o', hrun, ha⟩ := add_spec hv hchild (d := ()) trivial
    refine ⟨id, g', hrun, o', ha.valid, fun j hj => ?_,
      standing_push Term.lt_of_mem_children_toList ha.extended hstanding hn ha.stands⟩
    rcases Array.mem_push.1 hj with hj | rfl
    · exact Nat.lt_of_lt_of_le (hids j hj) ha.extended.size_le
    · exact ha.lt
  have hempty : Standing g o t.nodes.toList #[] := fun i c n hc => by simp at hc
  obtain ⟨ids, g', hrun, ⟨o', hv', -, hstanding⟩, hsize⟩ :=
    addNodes_ind Term.lt_of_mem_children_toList hstep t.nodes.toList
      ⟨o, hv, fun id hid => by simp at hid, hempty⟩ rfl (Nat.zero_le _)
  have hsize' : ids.size = t.size := hsize.trans Array.length_toList
  exact ⟨ids, g', o', addTerm_of_addNodes ht hrun hsize', hv', hsize', hstanding⟩

/-! ## Rebuilt graphs -/

namespace EGraph

variable {D : Type} {o : Origin D} {c : ClassId}

/-- Where no repairs are due, a node that stands is found. -/
theorem lookup_of_stands (hk : g.Known o) (hp : g.pending = []) (h : g.Stands o (n, c)) :
    g.lookup n = some (g.find c) := by
  obtain ⟨j, hj, hjc⟩ := found_of_stands hk hp h
  have hj' : g.memo[g.canonicalize n]? = some j := hj
  rw [lookup, hj', Option.map_some]
  exact congrArg some hjc

/-- What is found stands in its class. -/
theorem stands_of_lookup (hs : g.Shape) (hf : g.Founded o) (h : g.lookup n = some c) :
    g.Stands o (n, c) := by
  obtain ⟨j, hj, rfl⟩ := Option.map_eq_some_iff.1 h
  exact (hf.memo _ _ hj).of_same ⟨(canonicalize_canonicalize hs n).symm, find_find hs j⟩

theorem current_of_lookup (hs : g.Shape) (hf : g.Founded o) (h : g.lookup n = some c) :
    g.Current c := by
  refine ⟨(stands_of_lookup hs hf h).lt hs, ?_⟩
  obtain ⟨j, -, rfl⟩ := Option.map_eq_some_iff.1 h
  exact find_find hs j

theorem lookup_canonicalize (hs : g.Shape) (n : ENode) :
    g.lookup (g.canonicalize n) = g.lookup n := by
  rw [lookup, lookup, canonicalize_canonicalize hs]

end EGraph

/-- A term is found where its nodes are found in the classes of the ids. -/
theorem lookupTerm_of_lookup {ids : Array ClassId} (hs : g.Shape) (ht : t.isEmpty = false)
    (h : ∀ (i : Nat) (n : Node Nat), t.nodes[i]? = some n →
      g.lookup (n.map fun j => ids.getD j 0) = some (g.find (ids.getD i 0))) :
    g.lookupTerm t = some (g.find (ids.getD (t.size - 1) 0)) := by
  -- the nodes are also found under the names that their children have now
  have hfound : ∀ (i : Nat) (n : Node Nat), t.nodes.toList[i]? = some n →
      g.lookup (n.map fun j => g.find (ids.getD j 0)) = some (g.find (ids.getD i 0)) := by
    intro i n hn
    have hmap : (n.map fun j => g.find (ids.getD j 0)) =
        g.canonicalize (n.map fun j => ids.getD j 0) := (Node.map_map _ _ n).symm
    rw [hmap, lookup_canonicalize hs]
    exact h i n (by rwa [Array.getElem?_toList] at hn)
  obtain ⟨ids', hids', hsize', hcls⟩ := lookupNodes_eq (fun i => g.find (ids.getD i 0))
    Term.lt_of_mem_children_toList hfound t.nodes.toList #[] (fun i hi => by simp at hi) rfl
    (Nat.zero_le _)
  have hsize' : ids'.size = t.size := hsize'.trans Array.length_toList
  have hlast := hcls (t.size - 1) (by rw [hsize']; exact Term.size_sub_one_lt ht)
  show (g.lookupNodes t.nodes.toList #[]).bind Array.back? = _
  rw [hids', Option.bind_some, Array.back?, hsize', hlast]

/-- The term of a minus on a variable. -/
def minusTerm : Term := .ofTree (.unary .minus (.leaf (.var "x")))

/-- The minus is one, that of another variable is two, and the variables are joined. -/
def partedBy : List Operation :=
  [.add (.leaf (.var "y")), .add (.unary .minus 2), .add (.leaf (.const (.int 1))),
    .add (.leaf (.const (.int 2))), .union 1 4, .union 3 5, .union 0 2, .rebuild]

/-- Why a rebuild has to succeed.  The last operation finds that the minuses are one node, notes the
class of two for it, and fails, as that class cannot be joined with the one that the term was given.
The next rebuild succeeds, and the term is found in the class of two. -/
theorem not_remembers_parted :
    ∃ id g₁ n g₃, addTerm minusTerm (empty .constantFolding) = .ok (some id) g₁ ∧
      Operation.FitAll partedBy g₁ ∧ rebuild (Operation.runAll partedBy g₁) = .ok n g₃ ∧
      g₃.lookupTerm minusTerm ≠ some (g₃.find id) := by
  have hadd : (success? (addTerm minusTerm (empty .constantFolding))).map Prod.fst =
      some (some 1) := by decide +kernel
  obtain ⟨⟨id, g₁⟩, hadd, rfl⟩ := Option.map_eq_some_iff.1 hadd
  have hadd := eq_ok_of_success? hadd
  have hleft : g₁ = left (addTerm minusTerm (empty .constantFolding)) := by rw [hadd]; rfl
  have hrun : (success? (rebuild (Operation.runAll partedBy g₁))).map
      (fun r => (r.2.lookupTerm minusTerm, r.2.find 1)) = some (some 3, 1) := by
    rw [hleft]
    decide +kernel
  obtain ⟨⟨n, g₃⟩, hrun, hfound⟩ := Option.map_eq_some_iff.1 hrun
  obtain ⟨hfound, hfind⟩ := Prod.mk.inj hfound
  refine ⟨1, g₁, n, g₃, hadd, ?_, eq_ok_of_success? hrun, ?_⟩
  · simp only [partedBy, Operation.FitAll, Operation.Fits]
    rw [hleft]
    decide +kernel
  · rw [hfound, hfind]
    decide
end EqSat
