import EqSat.Proofs.EGraph.Change

/-!
# What holds of a graph at all times

Every id was made for one node, over ids made earlier; an `Origin` remembers that node and a
value of it.  Three things hold of a graph and an origin, between the calls and also between
the usages that a rebuild looks at:

* `Founded`: every entry of the graph (in the memo, a class, a list of parents, a worklist)
  stands for a node that was entered, up to the classes joined since.
* `Complete`: no entered node is lost.  It is found in the memo under its canonical form or
  awaits repair; the classes it uses list it as a parent; its constant is known or awaits
  evaluation; its class lists it or is known to be a constant.
* `Sound`: nothing is equal that the meaning of nodes does not make equal.

A class of known constant holds the leaf of the constant and only leaves (`Settled`).
-/

namespace EqSat

/-- What a node over values means, as far as the meaning is fixed: at most one value.  Where
constants are folded, the meaning agrees with the folding. -/
structure Meaning (D : Type) where
  analysis : Analysis
  const : Constant → D
  Holds : Node D → D → Prop
  holds_const : ∀ c, Holds (.leaf (.const c)) (const c)
  unique : ∀ {n d e}, Holds n d → Holds n e → d = e
  fold : analysis = .constantFolding → ∀ {n : Node Constant} {c d},
    (n.map some).fold? = some c → Holds (n.map const) d → d = const c

/-- The node that each id was made for, and a value of it. -/
structure Origin (D : Type) where
  node : ClassId → ENode
  value : ClassId → D

namespace Origin

variable {D : Type} (o : Origin D)

/-- The origin with a new id. -/
def extend (id : ClassId) (n : ENode) (d : D) : Origin D where
  node := Function.update o.node id n
  value := Function.update o.value id d

variable {o} {id : ClassId} {n : ENode} {d : D}

@[simp]
theorem node_extend_self : (o.extend id n d).node id = n := by simp [extend]

@[simp]
theorem value_extend_self : (o.extend id n d).value id = d := by simp [extend]

theorem node_extend_of_lt {i : ClassId} (hi : i < id) : (o.extend id n d).node i = o.node i := by
  simp [extend, Function.update_of_ne (Nat.ne_of_lt hi)]

theorem value_extend_of_lt {i : ClassId} (hi : i < id) : (o.extend id n d).value i = o.value i := by
  simp [extend, Function.update_of_ne (Nat.ne_of_lt hi)]

theorem map_value_extend {m : ENode} (hm : ∀ a ∈ m.children, a < id) :
    m.map (o.extend id n d).value = m.map o.value :=
  Node.map_congr fun a ha => value_extend_of_lt (hm a ha)

end Origin

namespace Node

variable {α β γ : Type}

/-- The head of a node, and how many children it has. -/
def outline (n : Node α) : Node Unit := n.map fun _ => ()

theorem outline_map (f : α → β) (n : Node α) : (n.map f).outline = n.outline := n.map_map _ f

/-- Equal nodes have equal heads and equal children. -/
theorem map_eq_map_iff {f : α → γ} {g : β → γ} {m : Node α} {n : Node β} :
    m.map f = n.map g ↔
      m.outline = n.outline ∧ ∀ c ∈ m.children.zip n.children, f c.1 = g c.2 := by
  cases m <;> cases n <;> simp [map, outline, children]

end Node

/-- Only nodes over known constants fold. -/
theorem Node.exists_map_some_of_fold {n : Node (Option Constant)} {k : Constant}
    (h : n.fold? = some k) : ∃ m : Node Constant, n = m.map some := by
  cases n with
  | leaf l => exact ⟨.leaf l, rfl⟩
  | unary op a =>
    cases a with
    | none => simp [Node.fold?] at h
    | some x => exact ⟨.unary op x, rfl⟩
  | binary op a b =>
    cases a with
    | none => simp [Node.fold?] at h
    | some x =>
      cases b with
      | none => simp [Node.fold?] at h
      | some y => exact ⟨.binary op x y, rfl⟩

namespace EGraph

variable {D : Type}

/-- Two usages that the graph cannot tell apart. -/
def Same (g : EGraph) (u v : Usage) : Prop :=
  g.canonicalize u.1 = g.canonicalize v.1 ∧ g.find u.2 = g.find v.2

/-- A node in a class stands for one that was entered. -/
def Stands (g : EGraph) (o : Origin D) (u : Usage) : Prop :=
  ∃ i, i < g.size ∧ g.Same u (o.node i, i)

/-- Every entry of the graph stands for an entered node, and entered nodes use older ids. -/
structure Founded (g : EGraph) (o : Origin D) : Prop where
  child_lt : ∀ i, i < g.size → ∀ a ∈ (o.node i).children, a < i
  memo : ∀ n id, g.memo[n]? = some id → g.Stands o (n, id)
  nodes : ∀ id c, g.stored? id = some c → ∀ n ∈ c.nodes, g.Stands o (n, id)
  parents : ∀ id c, g.stored? id = some c → ∀ u ∈ c.parents, g.Stands o u
  pending : ∀ u ∈ g.pending, g.Stands o u
  foldPending : ∀ u ∈ g.foldPending, g.Stands o u

/-- The memo finds the node in its class. -/
def Found (g : EGraph) (u : Usage) : Prop :=
  ∃ j, g.memo[g.canonicalize u.1]? = some j ∧ g.find j = g.find u.2

/-- A repair of the usage is due. -/
def AwaitsRepair (g : EGraph) (u : Usage) : Prop := ∃ v ∈ g.pending, g.Same v u

/-- An evaluation of the usage is due. -/
def AwaitsFold (g : EGraph) (u : Usage) : Prop := ∃ v ∈ g.foldPending, g.Same v u

/-- The class of `a` lists the usage among those that use it. -/
def UsedBy (g : EGraph) (a : ClassId) (u : Usage) : Prop :=
  ∃ c, g.classAt? a = some c ∧ ∃ v ∈ c.parents, g.Same v u

/-- The class lists the node, unless it is known to be a constant and the node is no leaf. -/
def Listed (g : EGraph) (u : Usage) : Prop :=
  ∃ c, g.classAt? u.2 = some c ∧
    ((c.data ≠ none ∧ u.1.isLeaf = false) ∨ ∃ n ∈ c.nodes, g.canonicalize n = g.canonicalize u.1)

/-- Nothing that was entered is lost; `known` apart, which a repair breaks and mends. -/
structure Complete (g : EGraph) (o : Origin D) : Prop where
  used : ∀ i, i < g.size → ∀ a ∈ (o.node i).children, g.UsedBy a (o.node i, i)
  folded : ∀ i, i < g.size → ∀ k, g.foldNode (o.node i) = some k →
    g.constantAt? i = some k ∨ g.AwaitsFold (o.node i, i)
  listed : ∀ i, i < g.size → g.Listed (o.node i, i)
  const : g.analysis = .constantFolding → ∀ i, i < g.size → ∀ k,
    o.node i = .leaf (.const k) → g.constantAt? i = some k
  unknown : g.analysis = .empty → ∀ i, g.constantAt? i = none

/-- Every entered node is found in the memo, or its repair is due. -/
def Known (g : EGraph) (o : Origin D) : Prop :=
  ∀ i, i < g.size → g.Found (o.node i, i) ∨ g.AwaitsRepair (o.node i, i)

/-- The values agree with the meaning of nodes, with the classes and with the constants. -/
structure Sound (I : Meaning D) (g : EGraph) (o : Origin D) : Prop where
  analysis : g.analysis = I.analysis
  holds : ∀ i, i < g.size → I.Holds ((o.node i).map o.value) (o.value i)
  value_find : ∀ i, i < g.size → o.value (g.find i) = o.value i
  value_const : ∀ i k, g.constantAt? i = some k → o.value i = I.const k

/-- The class holds the leaf of the constant `k`, and leaves only. -/
def SettledAt (g : EGraph) (id : ClassId) (c : EClass) (k : Constant) : Prop :=
  (∃ j, g.memo[(Node.leaf (.const k) : ENode)]? = some j ∧ g.find j = id) ∧
    .leaf (.const k) ∈ c.nodes ∧ ∀ n ∈ c.nodes, n.isLeaf = true

/-- All classes of known constant are settled, those in `except` apart. -/
def SettledBut (g : EGraph) (except : ClassId → Prop) : Prop :=
  ∀ id c k, ¬ except id → g.stored? id = some c → c.data = some k → g.SettledAt id c k

/-- All classes of known constant are settled. -/
def Settled (g : EGraph) : Prop := g.SettledBut fun _ => False

/-- What a conflict, too, leaves true. -/
structure Lawful (I : Meaning D) (g : EGraph) (o : Origin D) : Prop where
  shape : g.Shape
  founded : g.Founded o
  sound : g.Sound I o

/-- What holds in the middle of a call. -/
structure Core (I : Meaning D) (g : EGraph) (o : Origin D) : Prop extends Lawful I g o where
  complete : g.Complete o

/-- What holds between the calls, and between the usages that a rebuild looks at. -/
structure Valid (I : Meaning D) (g : EGraph) (o : Origin D) : Prop extends Core I g o where
  known : g.Known o
  settled : g.Settled

/-! ## Small consequences -/

variable {g : EGraph} {o : Origin D} {u v w : Usage}

theorem same_refl (u : Usage) : g.Same u u := ⟨rfl, rfl⟩

theorem Same.symm (h : g.Same u v) : g.Same v u := ⟨h.1.symm, h.2.symm⟩

theorem Same.trans (h : g.Same u v) (h' : g.Same v w) : g.Same u w :=
  ⟨h.1.trans h'.1, h.2.trans h'.2⟩

theorem Stands.of_same (h : g.Stands o v) (huv : g.Same u v) : g.Stands o u := by
  obtain ⟨i, hi, hv⟩ := h
  exact ⟨i, hi, huv.trans hv⟩

theorem Stands.lt (hs : g.Shape) (h : g.Stands o u) : u.2 < g.size := by
  obtain ⟨i, hi, -, hf⟩ := h
  rw [← find_lt_iff hs, hf]
  exact find_lt hs hi

theorem Stands.child_lt (hs : g.Shape) (hf : g.Founded o) (h : g.Stands o u) :
    ∀ a ∈ u.1.children, a < g.size := by
  intro a ha
  obtain ⟨i, hi, hn, -⟩ := h
  have hmem : g.find a ∈ (g.canonicalize (o.node i)).children := by
    rw [← hn]
    exact mem_children_canonicalize.2 ⟨a, ha, rfl⟩
  obtain ⟨b, hb, hba⟩ := mem_children_canonicalize.1 hmem
  have hbi := hf.child_lt i hi b hb
  rw [← find_lt_iff hs, ← hba]
  exact find_lt hs (Nat.lt_trans hbi hi)

/-- A node keeps its value when its children are replaced by their representatives. -/
theorem Sound.map_canonicalize {I : Meaning D} (h : g.Sound I o) {n : ENode}
    (hn : ∀ a ∈ n.children, a < g.size) : (g.canonicalize n).map o.value = n.map o.value := by
  rw [canonicalize, Node.map_map]
  exact Node.map_congr fun a ha => h.value_find a (hn a ha)

theorem Sound.value_eq {I : Meaning D} (h : g.Sound I o) {a b : ClassId} (ha : a < g.size)
    (hb : b < g.size) (hab : g.find a = g.find b) : o.value a = o.value b := by
  rw [← h.value_find a ha, hab, h.value_find b hb]

variable {I : Meaning D}

/-- Entries of the graph hold in the meaning, as the entered nodes do. -/
theorem Lawful.holds (h : Lawful I g o) (hu : g.Stands o u) :
    I.Holds (u.1.map o.value) (o.value u.2) := by
  have hlt := hu.lt h.shape
  have hchild := hu.child_lt h.shape h.founded
  obtain ⟨i, hi, hn, hf⟩ := hu
  have hmap : u.1.map o.value = (o.node i).map o.value := by
    rw [← h.sound.map_canonicalize hchild, hn,
      h.sound.map_canonicalize fun a ha => Nat.lt_trans (h.founded.child_lt i hi a ha) hi]
  rw [hmap, h.sound.value_eq hlt hi hf]
  exact h.sound.holds i hi

/-- Congruent entries have one value. -/
theorem Lawful.value_eq_of_canonicalize_eq (h : Lawful I g o) (hu : g.Stands o u)
    (hv : g.Stands o v) (huv : g.canonicalize u.1 = g.canonicalize v.1) :
    o.value u.2 = o.value v.2 := by
  have hmap : u.1.map o.value = v.1.map o.value := by
    rw [← h.sound.map_canonicalize (hu.child_lt h.shape h.founded), huv,
      h.sound.map_canonicalize (hv.child_lt h.shape h.founded)]
  have hholds := h.holds hu
  rw [hmap] at hholds
  exact I.unique hholds (h.holds hv)

/-- What folding finds out is the value. -/
theorem Sound.eq_const_of_foldNode (h : g.Sound I o) {n : ENode} {d : D} {k : Constant}
    (hk : g.foldNode n = some k) (hd : I.Holds (n.map o.value) d) : d = I.const k := by
  unfold foldNode at hk
  split at hk
  · cases hk
  · next ha =>
    obtain ⟨m, hm⟩ := Node.exists_map_some_of_fold hk
    have hvalues : n.map o.value = m.map I.const := by
      cases n <;> cases m <;> simp only [Node.map, reduceCtorEq, Node.leaf.injEq, Node.unary.injEq,
        Node.binary.injEq] at hm ⊢
      · exact hm
      · exact ⟨hm.1, h.value_const _ _ hm.2⟩
      · exact ⟨hm.1, h.value_const _ _ hm.2.1, h.value_const _ _ hm.2.2⟩
    rw [hm] at hk
    rw [hvalues] at hd
    exact I.fold (h.analysis.symm.trans ha) hk hd

theorem settledBut_mono {p q : ClassId → Prop} (h : g.SettledBut p) (hpq : ∀ id, p id → q id) :
    g.SettledBut q := fun id c k hq hc hk => h id c k (fun hp => hq (hpq id hp)) hc hk

theorem lt_of_constantAt (hs : g.Shape) {i : ClassId} {k : Constant}
    (h : g.constantAt? i = some k) : i < g.size := by
  obtain ⟨c, hc, -⟩ := Option.bind_eq_some_iff.1 h
  exact (find_lt_iff hs).1 (lt_of_stored hs hc)

/-- The graph without nodes is in order, whatever the origin. -/
theorem valid_empty (I : Meaning D) (o : Origin D) : Valid I (empty I.analysis) o where
  shape := shape_empty I.analysis
  founded := by
    constructor <;> intros <;> simp_all [empty, size, UnionFind.size, UnionFind.empty, stored?]
  complete := by
    constructor <;> intros <;>
      simp_all [empty, size, UnionFind.size, UnionFind.empty, stored?, constantAt?, classAt?]
  sound := by
    constructor <;> intros <;>
      simp_all [empty, size, UnionFind.size, UnionFind.empty, stored?, constantAt?, classAt?]
  known := by
    intro i hi
    exact absurd hi (Nat.not_lt_zero i)
  settled := by
    intro id c k _ hc
    simp [empty, stored?] at hc

end EGraph

end EqSat
