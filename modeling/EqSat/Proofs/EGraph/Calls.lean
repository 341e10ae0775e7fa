import EqSat.Proofs.EGraph.Settle

/-!
# Adding and uniting

The two calls between rebuilds.  A node that has a value in the meaning can always be added;
two classes of one value can be made equal, unless two different constants of that value meet.

    add_spec        a node is added, and stands in the class that is given back
    union_spec      two classes become one, or nothing changes
-/

namespace EqSat.EGraph

variable {D : Type} {I : Meaning D} {g : EGraph} {o : Origin D} {n : ENode} {d : D}
  {a b : ClassId}

theorem add_eq (n : ENode) (g : EGraph) : add n g = match g.memo[g.canonicalize n]? with
    | some id => .ok (g.find id) g
    | none => (settle g.size >>= fun _ => do return (← get).find g.size)
        (g.enter (g.canonicalize n)) := by
  show (match g.memo[g.canonicalize n]? with
    | some id => return g.find id
    | none => do
      set (g.enter (g.canonicalize n))
      settle g.links.size
      return (← get).find g.links.size : Update ClassId) g = _
  cases g.memo[g.canonicalize n]? <;> rfl

theorem addNodes_cons {n : Node Nat} {m : ENode} {ns : List (Node Nat)} {ids : Array ClassId}
    {id : ClassId} {g' : EGraph} (hm : n.mapM (ids[·]?) = some m) (h : add m g = .ok id g') :
    addNodes (n :: ns) ids g = addNodes ns (ids.push id) g' := by
  rw [addNodes, hm]
  exact bind_ok h

/-- A term is added when its nodes are, and its class is that of the last. -/
theorem addTerm_eq {g' : EGraph} {t : Term} {ids : Array ClassId}
    (h : addNodes t.nodes.toList #[] g = .ok ids g') :
    addTerm t g = .ok (ids.back?.map g'.find) g' := by
  show (addNodes t.nodes.toList #[] >>= fun ids => do
    return ids.back?.map (← get).find : Update (Option ClassId)) g = _
  rw [bind_ok h]
  rfl

theorem fresh_canonicalize (hs : g.Shape) (hn : ∀ a ∈ n.children, a < g.size)
    (hm : g.memo[g.canonicalize n]? = none) : g.Fresh (g.canonicalize n) where
  canonical := canonicalize_canonicalize hs n
  child_lt := by
    intro a ha
    obtain ⟨b, hb, rfl⟩ := mem_children_canonicalize.1 ha
    exact find_lt hs (hn b hb)
  absent := hm

/-- What becomes of a graph to which a node of value `d` is added, in the class `id`. -/
structure Added (I : Meaning D) (g : EGraph) (o : Origin D) (n : ENode) (d : D) (id : ClassId)
    (g' : EGraph) (o' : Origin D) : Prop where
  valid : Valid I g' o'
  extended : Extends (· = g.canonicalize n) g o g' o'
  lt : id < g'.size
  stands : g'.Stands o' (n, id)
  value : o'.value id = d
  near : ∀ i, i < g'.size → ∃ j, (j < g.size ∨ j = id) ∧ g'.find i = g'.find j
  fresh : ∀ i, g.size ≤ i → i < g'.size → IsConstant (o'.node i) ∨ g'.find i = id

/-- A node that the memo has is in the class that the memo gives. -/
theorem added_of_memo {j : ClassId} (h : Valid I g o) (hd : I.Holds (n.map o.value) d)
    (hm : g.memo[g.canonicalize n]? = some j) : Added I g o n d (g.find j) g o := by
  have hstands : g.Stands o (n, g.find j) :=
    (h.founded.memo _ _ hm).of_same
      ⟨(canonicalize_canonicalize h.shape n).symm, find_find h.shape j⟩
  exact ⟨h, .refl, hstands.lt h.shape, hstands, I.unique (h.holds hstands) hd,
    fun i hi => ⟨i, Or.inl hi, rfl⟩, fun i hi hlt => absurd hlt (Nat.not_lt_of_le hi)⟩

/-- A node that is new is entered, and its class is settled. -/
theorem added_enter (h : Valid I g o) (hn : ∀ a ∈ n.children, a < g.size)
    (hd : I.Holds (n.map o.value) d) (hm : g.memo[g.canonicalize n]? = none) :
    ∃ g' o', settle g.size (g.enter (g.canonicalize n)) = .ok () g' ∧
      Added I g o n d (g'.find g.size) g' o' := by
  have hfresh := fresh_canonicalize h.shape hn hm
  have hd' : I.Holds ((g.canonicalize n).map o.value) d := by
    rwa [h.sound.map_canonicalize hn]
  have hcore := core_enter h.toCore hfresh hd'
  have hlt : g.size < (g.enter (g.canonicalize n)).size := size_lt_enter
  have hsettled : (g.enter (g.canonicalize n)).SettledBut
      (· = (g.enter (g.canonicalize n)).find g.size) := by
    rw [find_enter_size h.shape]
    exact settledBut_mono (settledBut_enter h.shape hm h.settled) fun _ hid =>
      hid.resolve_left id
  obtain ⟨g', o', hrun, hvalid, hext, -⟩ :=
    settle_spec hcore (known_enter h.shape h.known hfresh) hsettled hlt
  have henter : Extends (· = g.canonicalize n) g o (g.enter (g.canonicalize n))
      (o.extend g.size (g.canonicalize n) d) := extends_enter h.shape rfl
  have hext' := henter.trans (hext _)
  have hstands : g'.Stands o' (n, g'.find g.size) := by
    refine ((hext fun _ => False).stands stands_enter_size).of_same
      ⟨?_, find_find hvalid.shape _⟩
    have hcan : g.Same (n, g.size) (g.canonicalize n, g.size) :=
      ⟨(canonicalize_canonicalize h.shape n).symm, rfl⟩
    exact (hext'.same hcan).1
  refine ⟨g', o', hrun, hvalid, hext', hstands.lt hvalid.shape, hstands, ?_, ?_, ?_⟩
  · rw [hvalid.sound.value_find _ (Nat.lt_of_lt_of_le hlt (hext fun _ => False).size_le),
      (hext fun _ => False).value _ hlt, Origin.value_extend_self]
  · intro i hi
    obtain ⟨j, hj, hij⟩ := (hext fun _ => False).near (fun _ hf => hf) i hi
    rcases lt_or_eq_of_lt_size_enter hj with hj | rfl
    · exact ⟨j, Or.inl hj, hij⟩
    · exact ⟨_, Or.inr rfl, by rw [hij, find_find hvalid.shape]⟩
  · -- what is newer than the node itself was made for a constant
    intro i hi hlt'
    rcases Nat.eq_or_lt_of_le hi with rfl | hi
    · exact Or.inr rfl
    · have hi' : (g.enter (g.canonicalize n)).size ≤ i := by
        rw [size_enter]
        exact hi
      exact Or.inl (((hext fun _ => False).fresh i hi' hlt').resolve_right id)

/-- **Adding** a node that has a value never fails; the class given back holds the node. -/
theorem add_spec (h : Valid I g o) (hn : ∀ a ∈ n.children, a < g.size)
    (hd : I.Holds (n.map o.value) d) :
    ∃ id g' o', add n g = .ok id g' ∧ Added I g o n d id g' o' := by
  rw [add_eq]
  cases hm : g.memo[g.canonicalize n]? with
  | some j => exact ⟨g.find j, g, o, rfl, added_of_memo h hd hm⟩
  | none =>
    obtain ⟨g', o', hrun, ha⟩ := added_enter h hn hd hm
    refine ⟨g'.find g.size, g', o', ?_, ha⟩
    dsimp only
    rw [bind_ok hrun]
    rfl

/-- Two different constants of one value. -/
def Clash (I : Meaning D) (e : Conflict) : Prop :=
  e.left ≠ e.right ∧ I.const e.left = I.const e.right

/-- What becomes of a graph in which `a` and `b` are made equal. -/
structure United (g : EGraph) (I : Meaning D) (o : Origin D) (a b : ClassId) (g' : EGraph)
    (o' : Origin D) : Prop where
  valid : Valid I g' o'
  extended : ∀ new, Extends new g o g' o'
  find_eq : g'.find a = g'.find b
  work_le : g'.work ≤ g.work

/-- **Uniting** two classes of one value makes them equal, or two different constants of the
value meet and nothing has changed. -/
theorem union_spec (h : Core I g o) (hsettled : g.Settled) (hknown : g.KnownUpTo o a b)
    (ha : a < g.size) (hb : b < g.size) (hv : o.value a = o.value b) :
    (∃ g' o', union a b g = .ok (decide (g.find a ≠ g.find b)) g' ∧ g.United I o a b g' o') ∨
    ∃ e, union a b g = .error e g ∧ Clash I e := by
  have hrun : union a b g = (merge a b >>= fun joined =>
      if joined then do settle a; return true else return false) g := rfl
  rcases merge_spec h ha hb hv hknown with ⟨g₁, hm, hj⟩ | ⟨e, hm, -, hne, hconst, -⟩
  · left
    rw [hrun, bind_ok hm]
    by_cases hab : g.find a = g.find b
    · obtain rfl := hj.unchanged hab
      refine ⟨_, o, by simp [hab]; rfl, ?_⟩
      exact ⟨⟨h, hj.known, hsettled⟩, fun _ => .refl, hab, Nat.le_refl _⟩
    · have ha₁ : a < g₁.size := Nat.lt_of_lt_of_le ha (hj.extended fun _ => False).size_le
      have hs₁ := hj.settled (fun _ => False) hsettled (fun _ hf => hf.elim)
      obtain ⟨g', o', hset, hvalid, hext, hwork⟩ := settle_spec hj.core hj.known hs₁ ha₁
      refine ⟨g', o', ?_, ⟨hvalid, fun new => (hj.extended new).trans (hext new), ?_, ?_⟩⟩
      · simp only [hab, ne_eq, not_false_eq_true, decide_true, if_true]
        rw [bind_ok hset]
        rfl
      · exact (hext fun _ => False).find _ _ hj.find_eq
      · exact Nat.le_trans hwork hj.work_le
  · right
    exact ⟨e, by rw [hrun, bind_error hm], hne, hconst⟩

end EqSat.EGraph
