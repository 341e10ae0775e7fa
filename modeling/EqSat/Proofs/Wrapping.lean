import EqSat.Proofs.History

/-!
# A plus before any term

One rule matches every class and puts a plus before it.  The plus goes into the class of its
operand, so that the rule makes no new classes; all that it adds besides are leaves of constants,
which are in classes that were there.

    applyMatch_plus        what applying the rule adds to a graph
-/

namespace EqSat

open EGraph

variable {D : Type} {I : Meaning D} {g g' : EGraph} {o o' : Origin D}

theorem EGraph.IsConstant.ne_unary {n : ENode} (h : IsConstant n) {op : UnaryOp} {a : ClassId} :
    n ≠ .unary op a := by
  rintro rfl
  obtain ⟨k, hk⟩ := h
  cases hk

/-- The rule puts a plus before any term. -/
structure Rule.AddsPlus (r : Rule) (x : String) : Prop where
  lhs : r.lhs = .hole x
  rhs : r.rhs = .unary .plus (.hole x)
  guard : r.guard = none

/-- New nodes are leaves of constants, or pluses in the classes of their operands; and there are
no new classes. -/
structure Wrapped (g g' : EGraph) (o' : Origin D) : Prop where
  fresh : ∀ i, g.size ≤ i → i < g'.size → IsConstant (o'.node i) ∨
    ∃ a, o'.node i = .unary .plus a ∧ g'.find a = g'.find i
  near : ∀ i, i < g'.size → ∃ j, j < g.size ∧ g'.find i = g'.find j

/-- A plus that has been added, and its class been joined with that of its operand. -/
theorem wrapped_of_added {a b : ClassId} {d : D} {g₁ : EGraph} {o₁ : Origin D}
    (hs : g.Shape) (ha : Added I g o (.unary .plus a) d b g₁ o₁) {m : ClassId} (hm : m < g.size)
    (hma : g.find a = g.find m) (hu : g₁.United I o₁ m b g' o') : Wrapped g g' o' := by
  have hlater := hu.extended fun _ => False
  have hext := ha.extended.trans (hu.extended _)
  constructor
  · intro i hi hlt
    by_cases hi₁ : i < g₁.size
    · rw [hlater.node i hi₁]
      rcases ha.extended.fresh i hi hi₁ with hconst | hnode
      · exact .inl hconst
      · -- the plus itself: its class has been joined with that of its operand
        have hid := (ha.fresh i hi hi₁).resolve_left fun hconst => hconst.ne_unary hnode
        have hfi : g₁.find i = g₁.find b := by rw [← hid, find_find ha.valid.shape]
        refine .inr ⟨g.find a, hnode, ?_⟩
        rw [hext.find (g.find a) m (by rw [find_find hs, hma]), hu.find_eq, hlater.find _ _ hfi]
    · exact .inl ((hlater.fresh i (Nat.le_of_not_lt hi₁) hlt).resolve_right not_false)
  · intro i hi
    obtain ⟨j, hj, hij⟩ := hlater.near (fun _ hf => hf) i hi
    obtain ⟨l, hl | rfl, hjl⟩ := ha.near j hj
    · exact ⟨l, hl, hij.trans (hlater.find _ _ hjl)⟩
    · exact ⟨m, hm, by rw [hij, hlater.find _ _ hjl, hu.find_eq]⟩

/-- **A plus before a term** goes into the class of the term. -/
theorem applyMatch_plus (hplus : ∀ d, I.Holds (.unary .plus d) d) {r : Rule}
    {m : Match} {x : String} (hr : r.AddsPlus x) (h : Valid I g o)
    (hm : r.lhs.Instance I g o m) :
    EndsWith I (fun g' o' => Wrapped g g' o') g o (r.applyMatch m g) := by
  obtain ⟨c, hc, hclt⟩ := hm.binds x (by rw [hr.lhs]; simp [Pattern.vars, Pattern.varsFrom])
  have hget := Subst.get_eq hc
  have hfind : g.find c = g.find m.1 := by rw [← hget, hm.hole x hr.lhs]
  have hlt : g.find c < g.size := find_lt h.shape hclt
  obtain ⟨id, g₁, o₁, hadd, ha⟩ := add_spec (n := .unary .plus (g.find c)) h
    (by simpa [Node.children] using hlt) (hplus _)
  have hrun : r.applyMatch m g = (EGraph.add (.unary .plus (g.find c)) >>= fun b =>
      EGraph.union m.1 b) g := by
    rw [Rule.applyMatch_eq, hr.guard, hr.rhs, ← hget]
    rfl
  have hm₁ : m.1 < g₁.size := Nat.lt_of_lt_of_le hm.lt ha.extended.size_le
  have hvalue : o₁.value m.1 = o₁.value id := by
    rw [ha.value, ha.extended.value _ hm.lt, ← h.sound.value_find _ hm.lt, hfind]
  rw [hrun, bind_ok hadd]
  rcases union_spec ha.valid.toCore ha.valid.settled (ha.valid.known.upTo _ _) hm₁ ha.lt hvalue with
    ⟨g', o', hok, hu⟩ | ⟨e, herror, hclash⟩
  · rw [hok]
    exact ⟨o', hu.valid, wrapped_of_added h.shape ha hm.lt (by rw [find_find h.shape, hfind]) hu,
      (ha.extended.trans (hu.extended _)).mono fun _ _ => trivial⟩
  · rw [herror]
    exact ⟨o₁, ha.valid.toLawful, ha.extended.mono fun _ _ => trivial, hclash⟩

end EqSat
