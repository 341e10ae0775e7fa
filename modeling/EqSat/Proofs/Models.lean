import EqSat.Proofs.Simplification

/-!
# Soundness in every model of the rules

A model gives values to leaves and operators.  Where it agrees with the folding of constants and
the rules are equations of it, every class has one value at all times: every node that was ever
placed in the class has it, over the values of its children.  What is extracted so has the value
of the term, and only constants of one value can conflict.

    Values.node_eq     nodes of one class have one value, whenever they were placed there
    simplify_sound     the states and the result of a simplification
-/

namespace EqSat

open EGraph

/-- Values for leaves and operators. -/
structure Model (V : Type) where
  const : Constant → V
  var : String → V
  unary : UnaryOp → V → V
  binary : BinaryOp → V → V → V

namespace Model

variable {V : Type} (M : Model V)

def leaf : Leaf → V
  | .const c => M.const c
  | .var x => M.var x

/-- The value of a node over values of its children. -/
def node : Node V → V
  | .leaf l => M.leaf l
  | .unary op a => M.unary op a
  | .binary op a b => M.binary op a b

def tree : Tree → V
  | .leaf l => M.leaf l
  | .unary op t => M.unary op (tree t)
  | .binary op t u => M.binary op (tree t) (tree u)

/-- The value of a pattern under an assignment of its variables. -/
def pattern (σ : String → V) : Pattern → V
  | .hole x => σ x
  | .leaf l => M.leaf l
  | .unary op p => M.unary op (pattern σ p)
  | .binary op p q => M.binary op (pattern σ p) (pattern σ q)

/-- What constants fold to holds in the model. -/
def Folds : Prop :=
  ∀ (n : Node Constant) (c : Constant), (n.map some).fold? = some c →
    M.node (n.map M.const) = M.const c

/-- Both sides of the rule are equal, whatever its guard says. -/
def Satisfies (r : Rule) : Prop := ∀ σ, M.pattern σ r.lhs = M.pattern σ r.rhs

variable {M}

theorem tree_ofNode (n : Node Tree) : M.tree (Tree.ofNode n) = M.node (n.map M.tree) := by
  cases n <;> rfl

/-- The model as a meaning of nodes. -/
def meaning (h : M.Folds) : Meaning V where
  analysis := .constantFolding
  const := M.const
  Holds n d := M.node n = d
  holds_const := fun _ => rfl
  unique := fun hd he => hd.symm.trans he
  fold := fun _ _ _ _ hc hd => hd.symm.trans (h _ _ hc)

theorem means_iff (h : M.Folds) {p : Pattern} {σ : String → V} {d : V} :
    p.Means (meaning h) σ d ↔ M.pattern σ p = d := by
  induction p generalizing d with
  | hole x => exact eq_comm
  | leaf l => rfl
  | unary op p ih =>
    simp only [Pattern.Means, ih]
    constructor
    · rintro ⟨a, rfl, hd⟩
      exact hd
    · exact fun hd => ⟨_, rfl, hd⟩
  | binary op p q ihp ihq =>
    simp only [Pattern.Means, ihp, ihq]
    constructor
    · rintro ⟨a, b, rfl, rfl, hd⟩
      exact hd
    · exact fun hd => ⟨_, _, rfl, rfl, hd⟩

theorem holds_of_satisfies (h : M.Folds) {r : Rule} (hr : M.Satisfies r) : r.Holds (meaning h) := by
  intro σ d hd
  rw [means_iff] at hd ⊢
  rw [← hr σ, hd]

end Model

/-! ## Values of the classes -/

/-- The node is in the class of `id`: the class lists it, or the memo finds it there. -/
def EGraph.Places (g : EGraph) (n : ENode) (id : ClassId) : Prop :=
  (∃ c, g.stored? id = some c ∧ n ∈ c.nodes) ∨ g.memo[n]? = some id

/-- One value for every id, that all graphs of a list agree with. -/
structure Model.Values {V : Type} (M : Model V) (ν : ClassId → V) (graphs : List EGraph) :
    Prop where
  node : ∀ g ∈ graphs, ∀ n id, g.Places n id → M.node (n.map ν) = ν id
  find : ∀ g ∈ graphs, ∀ a b, g.find a = g.find b → ν a = ν b

namespace Model

variable {V : Type} {M : Model V} {ν : ClassId → V} {graphs : List EGraph}

/-- Two nodes have one value if they were ever placed in classes that ever became one. -/
theorem Values.node_eq (h : M.Values ν graphs) {s s' g : EGraph} (hs : s ∈ graphs)
    (hs' : s' ∈ graphs) (hg : g ∈ graphs) {m n : ENode} {a b : ClassId} (hm : s.Places m a)
    (hn : s'.Places n b) (hab : g.find a = g.find b) : M.node (m.map ν) = M.node (n.map ν) := by
  rw [h.node s hs m a hm, h.node s' hs' n b hn, h.find g hg a b hab]

/-- The origin that fits all graphs of a history gives the values. -/
theorem values_of_lawful (hf : M.Folds) {o : Origin V}
    (h : ∀ s ∈ graphs, Lawful (meaning hf) s o) : M.Values o.value graphs where
  node := by
    intro g hg n id hplace
    refine (h g hg).holds (u := (n, id)) ?_
    rcases hplace with ⟨c, hc, hn⟩ | hmemo
    · exact (h g hg).founded.nodes id c hc n hn
    · exact (h g hg).founded.memo n id hmemo
  find := by
    intro g hg a b hab
    have hs := (h g hg).shape
    by_cases ha : a < g.size
    · have hb : b < g.size := by
        rw [← find_lt_iff hs, ← hab]
        exact find_lt hs ha
      exact (h g hg).sound.value_eq ha hb hab
    · -- ids that were not made yet are found at themselves
      have hb : ¬ b < g.size := by
        rwa [← find_lt_iff hs, ← hab, find_lt_iff hs]
      rw [find_of_size_le (Nat.le_of_not_lt ha), find_of_size_le (Nat.le_of_not_lt hb)] at hab
      rw [hab]

/-- **Soundness.**  The graphs of a run from the seeded one on are a history, and in every
history all nodes that are ever placed in one class have one value; the seed's class has the
value of the term.  The term that is extracted has it too, and a run that fails has met two
constants of one value. -/
theorem simplify_sound (hf : M.Folds) {rules : List Rule} (hr : ∀ r ∈ rules, M.Satisfies r)
    {t : Term} {u : Tree} (ht : t.tree? = some u) (limits : Limits) :
    ∃ id start, addTerm t (.empty .constantFolding) = .ok (some id) start ∧
      (∃ graphs stop, History rules start graphs stop ∧
        graphs.head? = some (saturate rules limits t).2.egraph) ∧
      (∀ graphs stop, History rules start graphs stop →
        ∃ ν, M.Values ν graphs ∧ ν id = M.tree u) ∧
      (∀ best, t.simplify rules limits = .ok best →
        ∃ v, best.tree? = some v ∧ M.tree v = M.tree u) ∧
      (∀ e, t.simplify rules limits = .error e →
        (∃ c, e = .conflict c) ∧ ¬ Function.Injective M.const) := by
  obtain ⟨hempty, hu⟩ := Term.treeAt_of_tree? ht
  have hvalued : t.Valued (meaning hf) fun i => M.tree (t.treeAt i) :=
    fun i n hn => (t.steps_of_tree tree_ofNode i n hn).symm
  obtain ⟨id, start, o₀, hadd, hvalid, hid, hvalue, -, -, -⟩ := addTerm_spec hvalued hempty
    ⟨fun _ => .leaf (.const .zero), fun _ => M.const .zero⟩
  have hsets : Sets (meaning hf) rules (fun _ _ => True) start o₀ :=
    ⟨keeps_of_holds fun r h => holds_of_satisfies hf (hr r h), hvalid, trivial⟩
  refine ⟨id, start, hadd, ?_, ?_, ?_⟩
  · obtain ⟨graphs, stop, hist, hhead, -⟩ := saturate_spec hsets hadd limits
    exact ⟨graphs, stop, hist, hhead⟩
  · intro graphs stop hist
    obtain ⟨g, past, o, rfl, hup⟩ := hist.upheld hsets.keeps hvalid trivial
    refine ⟨o.value, values_of_lawful hf fun s hs => (hup.seen s hs).1, ?_⟩
    rw [hup.since.value id hid, hvalue, hu]
  · rcases simplify_spec hsets hadd hid limits with
      ⟨e, herror, hne, hconst⟩ | ⟨best, g, o, cls, hok, hbest⟩
    · refine ⟨fun best hok => ?_, fun e' he => ?_⟩
      · rw [herror] at hok
        cases hok
      · rw [herror] at he
        cases he
        exact ⟨⟨e, rfl⟩, fun hinj => hne (hinj hconst)⟩
    · refine ⟨fun best' hok' => ?_, fun e he => ?_⟩
      · rw [hok] at hok'
        cases hok'
        have hsteps : best.Steps M.node fun i => o.value (cls i) := fun i n hn =>
          (hbest.spells.holds hbest.valid i n hn).symm
        refine ⟨_, Term.tree?_eq best hbest.spells.nonempty, ?_⟩
        rw [Term.eq_of_steps (best.steps_of_tree tree_ofNode) hsteps _
          (Term.size_sub_one_lt hbest.spells.nonempty), hbest.value_root hid, hvalue, hu]
      · rw [hok] at he
        cases he

/-- Folding as a model, with zero where nothing folds. -/
def folding (ρ : String → Constant) : Model Constant where
  const := id
  var := ρ
  unary op a := (op.fold? a).getD .zero
  binary op a b := (op.fold? a b).getD .zero

theorem folds_folding (ρ : String → Constant) : (folding ρ).Folds := by
  intro n c h
  cases n with
  | leaf l =>
    cases l with
    | const k => exact Option.some.inj h
    | var x => cases h
  | unary op a =>
    have h' : op.fold? a = some c := h
    show (op.fold? a).getD _ = c
    rw [h', Option.getD_some]
  | binary op a b =>
    have h' : op.fold? a b = some c := h
    show (op.fold? a b).getD _ = c
    rw [h', Option.getD_some]

/-- The order of two relations is an equation of folding, so `x > 3` keeps its value. -/
theorem simplify_sound_order :
    let gtLt := Rule.Default.rule "relational" "gt-lt" (.binary .gt (.hole "x") (.hole "y"))
      (.binary .lt (.hole "y") (.hole "x")) (by decide)
    let M := folding fun _ => .int 7
    let t := Tree.binary .gt (.leaf (.var "x")) (.leaf (.const (.int 3)))
    M.Folds ∧ (∀ r ∈ [gtLt], M.Satisfies r) ∧ (Term.ofTree t).tree? = some t ∧
      ∀ best, (Term.ofTree t).simplify [gtLt] .default = .ok best →
        ∃ v, best.tree? = some v ∧ M.tree v = .bool true := by
  intro gtLt M t
  have hsat : ∀ r ∈ [gtLt], M.Satisfies r := by
    intro r hr σ
    obtain rfl := List.mem_singleton.1 hr
    show (BinaryOp.fold? .gt (σ "x") (σ "y")).getD _ = (BinaryOp.fold? .lt (σ "y") (σ "x")).getD _
    cases σ "x" <;> cases σ "y" <;> rfl
  have ht : (Term.ofTree t).tree? = some t := rfl
  obtain ⟨-, -, -, -, -, hok, -⟩ := simplify_sound (folds_folding _) hsat ht .default
  exact ⟨folds_folding _, hsat, ht, hok⟩

end Model

end EqSat
